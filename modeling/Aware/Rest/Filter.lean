import Aware.Filter.Chain
import Aware.Rest.Rows

/-!
# Filters in requests and rows

A filter request is decoded three times: by the handler that installs it, from the rows after a
restart, and from the rows when it is deleted.
-/
namespace Aware.Rest
open Aware.Filter (ipprotoIp)

structure Addr (w : ℕ) where
  len : UInt8
  family : UInt8
  naddr : BitVec w
  deriving DecidableEq, Repr

def addr4 (a : BitVec 32) : Addr 32 :=
  ⟨8, afInet, a⟩

def addr6 (a : BitVec 128) : Addr 128 :=
  ⟨32, afInet6, a⟩

structure ApiFilter where
  iptype : UInt8
  proto : UInt8
  ip4 : BitVec 32
  msk4 : BitVec 32
  ip6 : BitVec 128
  msk6 : BitVec 128
  addr4 : Addr 32
  mask4 : Addr 32
  addr6 : Addr 128
  mask6 : Addr 128
  id : UInt32
  gid : UInt32
  port : UInt16
  filterType : UInt8
  deriving DecidableEq, Repr

/-- Without a mask only `msk4` is set, and `mask4` is left as it is. -/
def ApiFilter.set4 (f : ApiFilter) (p : BitVec 32 × Option (BitVec 32)) : ApiFilter :=
  let f := { f with iptype := afInet, ip4 := p.1, addr4 := Rest.addr4 p.1 }
  match p.2 with
  | some msk => { f with msk4 := msk, mask4 := Rest.addr4 msk }
  | none => { f with msk4 := 0 }

def ApiFilter.set6 (f : ApiFilter) (p : BitVec 128 × Option (BitVec 128)) : ApiFilter :=
  let f := { f with iptype := afInet6, ip6 := p.1, addr6 := Rest.addr6 p.1 }
  match p.2 with
  | some msk => { f with msk6 := msk, mask6 := Rest.addr6 msk }
  | none => { f with msk6 := 0 }

def filterTypes : List (String × UInt8) :=
  [("pkg_filter", 0), ("nat", 1), ("llb", 2), ("simple_trans", 3), ("gslb", 4), ("tcp_proxy", 5),
    ("http_proxy", 6)]

def cStr (s : String) : String :=
  String.ofList (s.toList.takeWhile (· ≠ '\x00'))

def alFilterType (t : String) : Option UInt8 :=
  filterTypes.lookup (cStr t)

def ipprotoTcp : UInt8 := 6

def ipprotoUdp : UInt8 := 17

section Add
variable (inet : Inet) (j : Json)

/-- Every exception in the filter handlers ends them with an internal error. -/
def Json.text (k : String) : Except Stop String :=
  orStop (fail .intervalError) (j.get k)

/-- The address and the mask of a request, which is the same code for both families. -/
def readPrefix {w : ℕ} (pton : String → Option (BitVec w)) :
    Except Stop (BitVec w × Option (BitVec w)) := do
  let address ← j.text "address"
  let ip ← orStop (fail .invalidIp) (pton address)
  if j.has "address_mask" then
    let mask ← j.text "address_mask"
    let msk ← orStop (fail .invalidIp) (pton mask)
    pure (ip, some msk)
  else pure (ip, none)

def filterAddress (f : ApiFilter) : Except Stop ApiFilter := do
  let iptype ← j.text "iptype"
  if iptype = "ipv4" then
    let p ← readPrefix j inet.pton4
    pure (f.set4 p)
  else if iptype = "ipv6" then
    let p ← readPrefix j inet.pton6
    pure (f.set6 p)
  else .error (fail .invalidIpType)

def filterPort : Except Stop UInt16 := do
  let port ← j.text "port"
  if 65535 < (stn16 port).toNat then .error (fail .invalidPort) else pure (stn16 port)

def filterProto (proto : String) : Except Stop UInt8 :=
  if proto = "tcp" ∧ proto = "udp" then .error (fail .protoTypeUnknown)
  else if proto = "tcp" then .ok ipprotoTcp
  else if proto = "udp" then .ok ipprotoUdp
  else if proto = "all" then .ok ipprotoIp
  else .error (fail .protoUnknow)

def filterNeeds : List String :=
  ["iptype", "port", "address", "name", "filter_type", "group", "proto"]

/-- The checks of `al_filter_add` up to the name. `f` is the uninitialised local. -/
def filterChecks (f : ApiFilter) : Except Stop (ApiFilter × String) :=
  if filterNeeds.all j.has then do
    let f ← filterAddress inet j f
    let port ← filterPort j
    let type ← j.text "filter_type"
    let filterType ← orStop (fail .filterTypeInvalid) (alFilterType type)
    let text ← j.text "proto"
    let proto ← filterProto text
    let name ← j.text "name"
    pure ({ f with proto, filterType, port }, name)
  else .error (fail .filterParamentsError)

/-- The row of the next filter depends on a key that is spelled otherwise. -/
def filterKeys : List String :=
  filterNeeds ++ (if j.has "next_fitler" then [] else ["next_filter"]) ++
    (if j.has "address_mask" then ["address_mask"] else [])

def filterRows (vid : ℕ) : Except Stop (List Row) :=
  orStop (fail .intervalError) (rowsOf "filter" (nts vid) j.get (filterKeys j))

def installed (f : ApiFilter) (vid : ℕ) (group : String) : ApiFilter :=
  { f with id := UInt32.ofNat vid, gid := stn32 group }

def filterRequest (vid : ℕ) (f : ApiFilter) : Except Stop (List Row × ApiFilter) := do
  let (f, _) ← filterChecks inet j f
  let group ← j.text "group"
  let rows ← filterRows j vid
  let _ ← j.text "next_filter"
  pure (rows, installed f vid group)

end Add

section Rows
variable (inet : Inet) (f : ApiFilter) (id : String) (d : Fields)

def rowPrefix {w : ℕ} (pton : String → Option (BitVec w)) (absent : BitVec w) :
    Option (BitVec w × Option (BitVec w)) := do
  let ip ← pton (d.get "address")
  let msk ← match d.find "address_mask" with
    | some mask => pton mask
    | none => some absent
  pure (ip, some msk)

def loadAddress : Option ApiFilter :=
  if d.get "iptype" = "ipv4" then (rowPrefix d inet.pton4 (BitVec.allOnes 32)).map f.set4
  else (rowPrefix d (fun a => (inet.pton6 a).map firstWord) (BitVec.allOnes 128)).map f.set6

def loadFields : ApiFilter :=
  { f with
    port := stn16 (d.get "port")
    filterType := (alFilterType (d.get "filter_type")).getD 255
    proto :=
      if d.get "proto" = "tcp" then ipprotoTcp
      else if d.get "proto" = "tcp" then ipprotoUdp
      else if d.get "proto" = "all" then ipprotoIp
      else f.proto
    gid := stn32 (d.get "group")
    id := stn32 id }

/-- One turn of the loop of `al_filter_load`; `f` is the filter of the turn before. `none` is an
access through a null pointer. -/
def alFilterLoad : Option ApiFilter :=
  (loadAddress inet f d).map fun f => loadFields f id d

def deleteAddress : Option ApiFilter :=
  if d.get "iptype" = "ipv4" then (rowPrefix d inet.pton4 0).map f.set4
  else if d.get "iptype" = "ipv6" then (rowPrefix d inet.pton6 0).map f.set6
  else some f

def deleteFields : ApiFilter :=
  { f with
    port := stn16 (d.get "port")
    filterType := (alFilterType (d.get "filter_type")).getD 255
    proto :=
      if d.get "proto" = "tcp" then ipprotoTcp
      else if d.get "proto" = "udp" then ipprotoUdp
      else ipprotoIp
    id := stn32 id
    gid := stn32 (d.get "group") }

def filterOfRows : Option ApiFilter :=
  (deleteAddress inet f d).map fun f => deleteFields f id d

end Rows

structure ApiFilter.SamePrefix (a b : ApiFilter) : Prop where
  iptype : a.iptype = b.iptype
  addr : if a.iptype = afInet then a.addr4 = b.addr4 else a.addr6 = b.addr6
  mask : if a.iptype = afInet then a.mask4 = b.mask4 else a.mask6 = b.mask6

structure ApiFilter.Same (a b : ApiFilter) : Prop extends a.SamePrefix b where
  proto : a.proto = b.proto
  port : a.port = b.port
  filterType : a.filterType = b.filterType
  gid : a.gid = b.gid
  id : a.id = b.id

section Accepted
variable {inet : Inet} {j : Json} {f f' : ApiFilter}

theorem text_eq_ok {k s : String} : j.text k = .ok s ↔ j.get k = some s :=
  orStop_eq_ok

variable {w : ℕ} {d : Fields} {p : BitVec w × Option (BitVec w)}

theorem readPrefix_ok {pton : String → Option (BitVec w)} (h : readPrefix j pton = .ok p) :
    (j.get "address").bind pton = some p.1 ∧ p.2 = (j.get "address_mask").bind pton ∧
      (p.2 = none → j.get "address_mask" = none) ∧ (j.has "address_mask" = true ↔ p.2.isSome) := by
  simp only [readPrefix, bind_eq_ok, text_eq_ok, orStop_eq_ok] at h
  obtain ⟨a, ha, ip, hip, h⟩ := h
  split at h
  · rename_i hhas
    simp only [bind_eq_ok, text_eq_ok, orStop_eq_ok] at h
    obtain ⟨m, hm, msk, hmsk, h⟩ := h
    cases h
    simp [ha, hip, hm, hmsk, hhas]
  · rename_i hhas
    cases h
    have hnone : j.get "address_mask" = none := by
      by_contra hsome
      obtain ⟨m, hm⟩ := Option.ne_none_iff_exists'.mp hsome
      exact hhas (Json.has_of_get hm)
    simp [ha, hip, hnone, hhas]

def Stored (d : Fields) (j : Json) : Prop :=
  ∀ k ∈ "address_mask" :: filterNeeds, d.find k = j.get k

theorem Stored.get (h : Stored d j) {k s : String} (hk : k ∈ filterNeeds)
    (hs : j.get k = some s) : d.get k = s :=
  Fields.get_of_find ((h k (List.mem_cons_of_mem _ hk)).trans hs)

theorem stored_of_rows {vid : ℕ} {rows db : List Row}
    (h : rowsOf "filter" (nts vid) j.get (filterKeys j) = some rows)
    (hdb : db.filter (Row.belongs "filter" (nts vid)) = rows) :
    Stored (object db "filter" (nts vid)) j := by
  intro k hk
  rw [object_rowsOf h hdb]
  by_cases hmem : k ∈ filterKeys j
  · rw [if_pos hmem]
  · have hmask : k = "address_mask" := by
      rcases List.mem_cons.mp hk with hk | hk
      · exact hk
      · exact absurd (List.mem_append_left _ (List.mem_append_left _ hk)) hmem
    subst hmask
    rw [if_neg hmem]
    by_contra hne
    obtain ⟨m, hm⟩ := Option.ne_none_iff_exists'.mp (Ne.symm hne)
    refine hmem (List.mem_append_right _ ?_)
    rw [if_pos (Json.has_of_get hm)]
    exact List.mem_singleton_self _

theorem rowPrefix_eq {pton : String → Option (BitVec w)} (hd : Stored d j)
    (h : readPrefix j pton = .ok p) (read : BitVec w → BitVec w) (absent : BitVec w) :
    rowPrefix d (fun a => (pton a).map read) absent =
      some (read p.1, some ((p.2.map read).getD absent)) := by
  obtain ⟨haddr, hmask, hnone, _⟩ := readPrefix_ok h
  obtain ⟨a, ha, hip⟩ := Option.bind_eq_some_iff.mp haddr
  have hfind := hd "address_mask" List.mem_cons_self
  rw [rowPrefix, hd.get (by decide) ha, hfind]
  cases hm : j.get "address_mask" with
  | none =>
    rw [hm] at hmask
    simp [hip, hmask]
  | some m =>
    rw [hm] at hmask hnone
    obtain ⟨msk, hmsk⟩ := Option.ne_none_iff_exists'.mp (mt hnone (Option.some_ne_none m))
    have hpton : pton m = some msk := hmask.symm.trans hmsk
    simp [hip, hmsk, hpton]

theorem rowPrefix_plain {pton : String → Option (BitVec w)} (hd : Stored d j)
    (h : readPrefix j pton = .ok p) (absent : BitVec w) :
    rowPrefix d pton absent = some (p.1, some (p.2.getD absent)) := by
  simpa only [Option.map_id'] using rowPrefix_eq hd h (fun a => a) absent

theorem filterRequest_ok {vid : ℕ} {rows : List Row} {live : ApiFilter}
    (h : filterRequest inet j vid f = .ok (rows, live)) :
    ∃ base port type filterType text proto group,
      filterAddress inet j f = .ok base ∧ j.get "port" = some port ∧
      j.get "filter_type" = some type ∧ alFilterType type = some filterType ∧
      j.get "proto" = some text ∧ filterProto text = .ok proto ∧ j.get "group" = some group ∧
      rowsOf "filter" (nts vid) j.get (filterKeys j) = some rows ∧
      live = installed { base with proto, filterType, port := stn16 port } vid group := by
  simp only [filterRequest, filterChecks, filterRows, filterPort, bind_eq_ok, text_eq_ok,
    orStop_eq_ok] at h
  obtain ⟨⟨f₁, name⟩, hchecks, group, hgroup, rows', hrows, next, _, h⟩ := h
  cases h
  split at hchecks
  · simp only [bind_eq_ok, text_eq_ok, orStop_eq_ok] at hchecks
    obtain ⟨base, hbase, p, ⟨port, hport, hp⟩, type, htype, ty, hty, text, htext, proto, hproto,
      _, _, hchecks⟩ := hchecks
    split at hp
    · cases hp
    · cases hp
      cases hchecks
      exact ⟨base, port, type, ty, text, proto, group, hbase, hport, htype, hty, htext, hproto,
        hgroup, hrows, rfl⟩
  · cases hchecks

end Accepted

section Prefix
variable (f g : ApiFilter)

theorem set4_samePrefix_iff (ip : BitVec 32) (m : Option (BitVec 32)) (f' : ApiFilter) :
    ((f.set4 (ip, some (m.getD (BitVec.allOnes 32)))).SamePrefix (g.set4 (ip, m)) ∧
      (f'.set4 (ip, some (m.getD 0))).SamePrefix (g.set4 (ip, m))) ↔ m.isSome := by
  cases m with
  | none =>
    refine ⟨fun h => ?_, fun h => nomatch h⟩
    -- the two decoders of the rows disagree, whatever the handler left in `mask4`
    have hload : Rest.addr4 (BitVec.allOnes 32) = g.mask4 := h.1.mask
    have hdelete : Rest.addr4 0 = g.mask4 := h.2.mask
    exact absurd (hload.trans hdelete.symm) (by decide)
  | some msk => exact ⟨fun _ => rfl, fun _ => ⟨⟨rfl, rfl, rfl⟩, ⟨rfl, rfl, rfl⟩⟩⟩

theorem addr6_inj {a b : BitVec 128} (h : addr6 a = addr6 b) : a = b :=
  congrArg Addr.naddr h

theorem set6_samePrefix_iff (ip : BitVec 128) (m : Option (BitVec 128)) (f' : ApiFilter) :
    ((f.set6 (firstWord ip, some ((m.map firstWord).getD (BitVec.allOnes 128)))).SamePrefix
        (g.set6 (ip, m)) ∧
      (f'.set6 (ip, some (m.getD 0))).SamePrefix (g.set6 (ip, m))) ↔
      m.isSome ∧ firstWord ip = ip ∧ ∀ msk ∈ m, firstWord msk = msk := by
  cases m with
  | none =>
    refine ⟨fun h => ?_, fun h => nomatch h.1⟩
    have hload : Rest.addr6 (BitVec.allOnes 128) = g.mask6 := h.1.mask
    have hdelete : Rest.addr6 0 = g.mask6 := h.2.mask
    exact absurd (hload.trans hdelete.symm) (by decide)
  | some msk =>
    constructor
    · rintro ⟨hload, _⟩
      refine ⟨rfl, addr6_inj hload.addr, ?_⟩
      rintro _ ⟨⟩
      exact addr6_inj hload.mask
    · rintro ⟨_, hip, hmsk⟩
      have hmsk := hmsk msk rfl
      refine ⟨⟨rfl, ?_, ?_⟩, ⟨rfl, rfl, rfl⟩⟩
      · exact congrArg Rest.addr6 hip
      · exact congrArg Rest.addr6 hmsk

end Prefix

theorem loadProto_iff {text : String} {proto : UInt8} (h : filterProto text = .ok proto)
    (before : UInt8) :
    (if text = "tcp" then ipprotoTcp else if text = "tcp" then ipprotoUdp
      else if text = "all" then ipprotoIp else before) = proto ↔
      (text = "udp" → before = ipprotoUdp) := by
  unfold filterProto at h
  split at h
  · cases h
  split at h
  · cases h
    simp_all
  split at h
  · cases h
    simp_all
  split at h
  · cases h
    simp_all
  · cases h

theorem stn32_nts_iff (n : ℕ) : stn32 (nts n) = UInt32.ofNat n ↔ n < 2 ^ 32 ∨ n % 2 ^ 32 = 0 := by
  rw [stn32_nts, ← UInt32.toNat_inj]
  split
  · simp_all
  · simp_all [eq_comm]

def OneWord (inet : Inet) (j : Json) : Prop :=
  j.get "iptype" = some "ipv6" →
    ∀ k ∈ ["address", "address_mask"], ∀ a ∈ (j.get k).bind inet.pton6, a.toNat < 2 ^ 32

structure Survives (inet : Inet) (j : Json) (vid : ℕ) (before : ApiFilter) : Prop where
  mask : j.has "address_mask" = true
  proto : j.get "proto" = some "udp" → before.proto = ipprotoUdp
  id : vid < 2 ^ 32 ∨ vid % 2 ^ 32 = 0
  word : OneWord inet j

/-- The filter that a restart loads from the rows is the installed one, and the one that a
deletion makes of them has its prefix. -/
def Restored (inet : Inet) (vid : ℕ) (db : List Row) (live before g : ApiFilter) : Prop :=
  (∃ loaded, alFilterLoad inet before (nts vid) (object (liveRows db) "filter" (nts vid)) =
      some loaded ∧ loaded.Same live) ∧
    ∃ deleted, filterOfRows inet g (nts vid)
      (object (retire (fun r => r.key2 == nts vid) db) "filter" (nts vid)) = some deleted ∧
        deleted.SamePrefix live

variable {b : ApiFilter} {d : Fields}

theorem alFilterLoad_same_iff {inet : Inet} {before live : ApiFilter} {id : String}
    (h : loadAddress inet before d = some b) :
    (∃ loaded, alFilterLoad inet before id d = some loaded ∧ loaded.Same live) ↔
      (loadFields b id d).Same live := by
  rw [alFilterLoad, h]
  constructor
  · rintro ⟨_, ⟨⟩, hsame⟩
    exact hsame
  · exact fun hsame => ⟨_, rfl, hsame⟩

theorem filterOfRows_samePrefix_iff {inet : Inet} {g live : ApiFilter} {id : String}
    (h : deleteAddress inet g d = some b) :
    (∃ deleted, filterOfRows inet g id d = some deleted ∧ deleted.SamePrefix live) ↔
      b.SamePrefix live := by
  rw [filterOfRows, h]
  constructor
  · rintro ⟨_, ⟨⟩, hsame⟩
    exact ⟨hsame.iptype, hsame.addr, hsame.mask⟩
  · exact fun hsame => ⟨_, rfl, hsame.iptype, hsame.addr, hsame.mask⟩

theorem loadFields_same_iff {j : Json} {base : ApiFilter} {vid : ℕ}
    {port type text group : String} {filterType proto : UInt8} (hd : Stored d j)
    (hport : j.get "port" = some port) (htype : j.get "filter_type" = some type)
    (hft : alFilterType type = some filterType) (htext : j.get "proto" = some text)
    (hproto : filterProto text = .ok proto) (hgroup : j.get "group" = some group) :
    (loadFields b (nts vid) d).Same
        (installed { base with proto, filterType, port := stn16 port } vid group) ↔
      b.SamePrefix base ∧ (text = "udp" → b.proto = ipprotoUdp) ∧
        (vid < 2 ^ 32 ∨ vid % 2 ^ 32 = 0) := by
  rw [loadFields, hd.get (by decide) hport, hd.get (by decide) htype, hd.get (by decide) htext,
    hd.get (by decide) hgroup, hft, ← loadProto_iff hproto, ← stn32_nts_iff]
  constructor
  · intro h
    exact ⟨⟨h.iptype, h.addr, h.mask⟩, h.proto, h.id⟩
  · rintro ⟨hpre, hpr, hid⟩
    exact ⟨⟨hpre.iptype, hpre.addr, hpre.mask⟩, hpr, rfl, rfl, rfl, hid⟩

section Prefixes
variable {inet : Inet} {j : Json} {d d' : Fields} {f base : ApiFilter}

theorem set4_proto (f : ApiFilter) (p : BitVec 32 × Option (BitVec 32)) :
    (f.set4 p).proto = f.proto := by
  rcases p with ⟨ip, _ | msk⟩ <;> rfl

theorem set6_proto (f : ApiFilter) (p : BitVec 128 × Option (BitVec 128)) :
    (f.set6 p).proto = f.proto := by
  rcases p with ⟨ip, _ | msk⟩ <;> rfl

theorem prefixes4 (hd : Stored d j) (hd' : Stored d' j) (hiptype : j.get "iptype" = some "ipv4")
    {p : BitVec 32 × Option (BitVec 32)} (hp : readPrefix j inet.pton4 = .ok p)
    (before g : ApiFilter) :
    ∃ b b', loadAddress inet before d = some b ∧ deleteAddress inet g d' = some b' ∧
      b.proto = before.proto ∧
      (b.SamePrefix (f.set4 p) ∧ b'.SamePrefix (f.set4 p) ↔
        j.has "address_mask" = true ∧ OneWord inet j) := by
  refine ⟨before.set4 (p.1, some (p.2.getD (BitVec.allOnes 32))),
    g.set4 (p.1, some (p.2.getD 0)), ?_, ?_, set4_proto _ _, ?_⟩
  · rw [loadAddress, if_pos (hd.get (by decide) hiptype), rowPrefix_plain hd hp]
    rfl
  · rw [deleteAddress, if_pos (hd'.get (by decide) hiptype), rowPrefix_plain hd' hp]
    rfl
  · rw [set4_samePrefix_iff before f p.1 p.2 g, (readPrefix_ok hp).2.2.2]
    refine ⟨fun h => ⟨h, fun hv6 => ?_⟩, And.left⟩
    rw [hiptype] at hv6
    exact absurd hv6 (by decide)

theorem prefixes6 (hd : Stored d j) (hd' : Stored d' j) (hiptype : j.get "iptype" = some "ipv6")
    {p : BitVec 128 × Option (BitVec 128)} (hp : readPrefix j inet.pton6 = .ok p)
    (before g : ApiFilter) :
    ∃ b b', loadAddress inet before d = some b ∧ deleteAddress inet g d' = some b' ∧
      b.proto = before.proto ∧
      (b.SamePrefix (f.set6 p) ∧ b'.SamePrefix (f.set6 p) ↔
        j.has "address_mask" = true ∧ OneWord inet j) := by
  obtain ⟨haddr, hmask, _, hhas⟩ := readPrefix_ok hp
  refine ⟨before.set6 (firstWord p.1, some ((p.2.map firstWord).getD (BitVec.allOnes 128))),
    g.set6 (p.1, some (p.2.getD 0)), ?_, ?_, set6_proto _ _, ?_⟩
  · rw [loadAddress, hd.get (by decide) hiptype, if_neg (by decide), rowPrefix_eq hd hp]
    rfl
  · rw [deleteAddress, hd'.get (by decide) hiptype, if_neg (by decide), if_pos rfl,
      rowPrefix_plain hd' hp]
    rfl
  · simp only [set6_samePrefix_iff before f p.1 p.2 g, hhas, firstWord_eq_iff]
    refine and_congr_right fun _ => ?_
    simp only [OneWord, hiptype, List.forall_mem_cons, haddr, ← hmask, forall_const, Option.mem_def,
      List.not_mem_nil, false_imp_iff, and_true, Option.some.injEq, forall_eq']

theorem prefixes (hd : Stored d j) (hd' : Stored d' j) (hbase : filterAddress inet j f = .ok base)
    (before g : ApiFilter) :
    ∃ b b', loadAddress inet before d = some b ∧ deleteAddress inet g d' = some b' ∧
      b.proto = before.proto ∧
      (b.SamePrefix base ∧ b'.SamePrefix base ↔
        j.has "address_mask" = true ∧ OneWord inet j) := by
  simp only [filterAddress, bind_eq_ok, text_eq_ok] at hbase
  obtain ⟨iptype, hiptype, hbase⟩ := hbase
  split at hbase
  · rename_i hv4
    subst hv4
    obtain ⟨p, hp, hbase⟩ := bind_eq_ok.mp hbase
    cases hbase
    exact prefixes4 hd hd' hiptype hp before g
  · split at hbase
    · rename_i hv6
      subst hv6
      obtain ⟨p, hp, hbase⟩ := bind_eq_ok.mp hbase
      cases hbase
      exact prefixes6 hd hd' hiptype hp before g
    · cases hbase

end Prefixes

theorem filter_restored_iff {inet : Inet} {j : Json} {vid : ℕ} {rows db : List Row}
    {f live : ApiFilter} (before g : ApiFilter)
    (hreq : filterRequest inet j vid f = .ok (rows, live))
    (hdb : db.filter (Row.belongs "filter" (nts vid)) = rows) :
    Restored inet vid db live before g ↔ Survives inet j vid before := by
  obtain ⟨base, port, type, filterType, text, proto, group, hbase, hport, htype, hft, htext,
    hproto, hgroup, hrows, rfl⟩ := filterRequest_ok hreq
  have hload := stored_of_rows hrows (live_of_rowsOf hrows hdb)
  have hdel : Stored (object (retire (fun r => r.key2 == nts vid) db) "filter" (nts vid)) j := by
    rw [object_retire]
    exact stored_of_rows hrows hdb
  obtain ⟨b, b', hb, hb', hkeep, hprefix⟩ := prefixes hload hdel hbase before g
  rw [Restored, alFilterLoad_same_iff hb, filterOfRows_samePrefix_iff hb',
    loadFields_same_iff hload hport htype hft htext hproto hgroup, hkeep]
  have hlive : b'.SamePrefix (installed { base with proto, filterType, port := stn16 port } vid group) ↔
      b'.SamePrefix base :=
    ⟨fun h => ⟨h.iptype, h.addr, h.mask⟩, fun h => ⟨h.iptype, h.addr, h.mask⟩⟩
  rw [hlive]
  constructor
  · rintro ⟨⟨hpre, hudp, hid⟩, hpre'⟩
    obtain ⟨hmask, hword⟩ := hprefix.mp ⟨hpre, hpre'⟩
    refine ⟨hmask, fun h => hudp ?_, hid, hword⟩
    rw [htext] at h
    exact Option.some.inj h
  · rintro ⟨hmask, hudp, hid, hword⟩
    obtain ⟨hpre, hpre'⟩ := hprefix.mpr ⟨hmask, hword⟩
    exact ⟨⟨hpre, fun h => hudp (h ▸ htext), hid⟩, hpre'⟩

def blankFilter : ApiFilter :=
  ⟨0, 0, 0, 0, 0, 0, ⟨0, 0, 0⟩, ⟨0, 0, 0⟩, ⟨0, 0, 0⟩, ⟨0, 0, 0⟩, 0, 0, 0, 0⟩

def webFilter (proto : String) : Json :=
  jsonOf [("iptype", "ipv4"), ("port", "80"), ("address", "10.0.0.1"), ("name", "web"),
    ("filter_type", "nat"), ("group", "1"), ("proto", proto), ("next_filter", "0"),
    ("address_mask", "255.255.255.0")]

theorem accepted_of_isOk (inet : Inet) (j : Json) (vid : ℕ) (f : ApiFilter)
    (h : (filterRequest inet j vid f).isOk = true) :
    ∃ rows live, filterRequest inet j vid f = .ok (rows, live) ∧
      rows.filter (Row.belongs "filter" (nts vid)) = rows := by
  cases hreq : filterRequest inet j vid f with
  | error e =>
    rw [hreq] at h
    cases h
  | ok r =>
    obtain ⟨_, _, _, _, _, _, _, _, _, _, _, _, _, _, hrows, _⟩ := filterRequest_ok hreq
    exact ⟨r.1, r.2, rfl, filter_rowsOf hrows⟩

theorem tcp_filter_restored : ∃ rows live,
    filterRequest someInet (webFilter "tcp") 7 blankFilter = .ok (rows, live) ∧
      Restored someInet 7 rows live blankFilter blankFilter := by
  obtain ⟨rows, live, hreq, hdb⟩ := accepted_of_isOk someInet (webFilter "tcp") 7 blankFilter
    (by decide +kernel)
  refine ⟨rows, live, hreq, (filter_restored_iff blankFilter blankFilter hreq hdb).mpr ?_⟩
  exact ⟨by decide +kernel, fun h => absurd h (by decide +kernel), .inl (by decide),
    fun h => absurd h (by decide +kernel)⟩

/-- The loader tests twice for `tcp`, so the protocol of a `udp` filter is whatever was there. -/
theorem udp_filter_changed : ∃ rows live,
    filterRequest someInet (webFilter "udp") 7 blankFilter = .ok (rows, live) ∧
      ¬ Restored someInet 7 rows live blankFilter blankFilter := by
  obtain ⟨rows, live, hreq, _⟩ := accepted_of_isOk someInet (webFilter "udp") 7 blankFilter
    (by decide +kernel)
  refine ⟨rows, live, hreq, ?_⟩
  rintro ⟨⟨loaded, hload, hsame⟩, _⟩
  have hall : ((filterRequest someInet (webFilter "udp") 7 blankFilter).toOption.all fun r =>
      (alFilterLoad someInet blankFilter (nts 7) (object (liveRows r.1) "filter" (nts 7))).all
        fun f => f.proto != r.2.proto) = true := by
    decide +kernel
  rw [hreq] at hall
  simp only [Except.toOption, Option.all_some, hload, bne_iff_ne, ne_eq] at hall
  exact hall hsame.proto

end Aware.Rest
