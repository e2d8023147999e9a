import Aware.Member.Group
import Aware.Rest.Rows

/-!
# Members in requests and rows

A member is decoded by the handler, which puts it into the copy of its group that each filter
has, and from the rows whenever a copy of the group is made.
-/
namespace Aware.Rest
open Aware.Member

section Add
variable (inet : Inet) (j : Json)

/-- The member handlers catch none of the exceptions of a request. -/
def Json.raw (k : String) : Except Stop String :=
  orStop .thrown (j.get k)

def memberAddress (conf : AlMemberConf) : Except Stop AlMemberConf := do
  let iptype ← j.raw "iptype"
  if iptype = "ipv4" then
    let address ← j.raw "address"
    let ip ← orStop (fail .invalidIp) (inet.pton4 address)
    pure { conf with addr := { conf.addr with family := afInet, naddr4 := ip } }
  else if iptype = "ipv6" then
    let address ← j.raw "address"
    let ip ← orStop (fail .invalidIp) (inet.pton6 address)
    pure { conf with addr := { conf.addr with family := afInet6, naddr6 := ip } }
  else .error (fail .invalidIpType)

def memberPort : Except Stop UInt16 := do
  let port ← j.raw "port"
  if 65535 < (stn16 port).toNat then .error (fail .invalidPort) else pure (htons (stn16 port))

def memberNeeds : List String :=
  ["iptype", "address", "port"]

/-- The weight is stored only when the request has none. -/
def memberKeys : List String :=
  ["iptype", "hcheck", "port", "address", "group"] ++ if j.has "weight" then [] else ["weight"]

def memberText (k : String) : Option String :=
  if k = "hcheck" then some "0" else j.get k

def memberRows (mid : ℕ) : Except Stop (List Row) :=
  orStop .thrown (rowsOf "member" (nts mid) (memberText j) (memberKeys j))

def memberWeight : UInt16 :=
  if j.has "weight" then 0 else stn16 ((j.get "weight").getD "")

/-- The address and the port of a request. A request without one of the fields is answered with
success. -/
def memberChecks (conf : AlMemberConf) : Except Stop AlMemberConf :=
  if memberNeeds.all j.has then do
    let conf ← memberAddress inet j conf
    let port ← memberPort j
    pure { conf with port }
  else .error (.idle (some .memberParamentsError))

def copied (mid : ℕ) (conf : AlMemberConf) : AlMemberConf :=
  { conf with weight := memberWeight j, mid := UInt32.ofNat (mid % 65536) }

def memberRequest (mid : ℕ) (conf : AlMemberConf) : Except Stop (List Row × AlMemberConf) := do
  let conf ← memberChecks inet j conf
  let rows ← memberRows j mid
  pure (rows, copied j mid conf)

end Add

section Load
variable (inet : Inet)

def memberOfRows (f : AlMemberConf) (id : String) (d : Fields) : Option AlMemberConf :=
  let weight := ((d.find "weight").map stn16).getD 0
  let f := { f with weight, port := stn16 (d.get "port"), mid := stn32 id }
  if d.get "iptype" = "ipv4" then
    (inet.pton4 (d.get "address")).map fun ip =>
      { f with addr := { f.addr with len := 8, family := afInet, naddr4 := ip } }
  else
    (inet.pton6 (d.get "address")).map fun ip =>
      { f with addr := { f.addr with len := 32, family := afInet6, naddr6 := firstWord ip } }

def inGroup (gid : UInt32) (d : Fields) : Prop :=
  d.get "group" = nts gid.toNat

instance (gid : UInt32) (d : Fields) : Decidable (inGroup gid d) :=
  inferInstanceAs (Decidable (_ = _))

def groupMembers (db : List Row) (gid : UInt32) : AlMemberConf → List String →
    List AlMemberConf × Bool
  | _, [] => ([], false)
  | f, id :: ids =>
    if inGroup gid (object db "member" id) then
      match memberOfRows inet f id (object db "member" id) with
      | none => ([], true)
      | some f =>
        let rest := groupMembers db gid f ids
        (f :: rest.1, rest.2)
    else groupMembers db gid f ids

end Load

def weightGiven (j : Json) : Option UInt16 :=
  match j "weight" with
  | some (.str s) => some (stn16 s)
  | some (.num n) => if 0 ≤ n ∧ n < 65536 then some (UInt16.ofNat n.toNat) else none
  | _ => none

structure Given (inet : Inet) (j : Json) (mid : ℕ) (m : AlMember) : Prop where
  mid : m.mid.toNat = mid
  port : ∀ p ∈ j.get "port", m.port = htons (stn16 p)
  weight : weightGiven j = some m.weight
  inet4 : j.get "iptype" = some "ipv4" →
    m.addr.family = afInet ∧ (j.get "address").bind inet.pton4 = some m.addr.naddr4
  inet6 : j.get "iptype" = some "ipv6" →
    m.addr.family = afInet6 ∧ (j.get "address").bind inet.pton6 = some m.addr.naddr6

/-- The values of the request are in every copy, and in the slot that the member is loaded into. -/
def MemberRestored (inet : Inet) (j : Json) (mid : ℕ) (db : List Row) (conf before : AlMemberConf)
    (live : List AlMember) (slot : AlMember) : Prop :=
  (∀ m ∈ live, Given inet j mid (fill conf m)) ∧
    ∃ f, memberOfRows inet before (nts mid) (object (liveRows db) "member" (nts mid)) = some f ∧
      (∀ g ∈ j.get "group", inGroup (stn32 g) (object (liveRows db) "member" (nts mid))) ∧
      Given inet j mid (fill f slot)

structure MemberSurvives (inet : Inet) (j : Json) (mid : ℕ) (live : List AlMember)
    (slot : AlMember) : Prop where
  group : ∀ g ∈ j.get "group", nts (stn32 g).toNat = g
  weight : weightGiven j = some 0
  width : mid < 2 ^ 32
  small : live ≠ [] → mid < 65536
  port : live ≠ [] → ∀ p ∈ j.get "port", htons (stn16 p) = stn16 p
  copied : j.get "iptype" = some "ipv6" → ∀ m ∈ live, m.addr.family = afInet →
    (j.get "address").bind inet.pton6 = some m.addr.naddr6
  loaded : j.get "iptype" = some "ipv6" → ∀ a ∈ (j.get "address").bind inet.pton6,
    if slot.addr.family = afInet then slot.addr.naddr6 = a else a.toNat < 2 ^ 32

section Accepted
variable {inet : Inet} {j : Json} {mid : ℕ} {conf conf₀ : AlMemberConf} {rows : List Row}

theorem raw_eq_ok {k s : String} : j.raw k = .ok s ↔ j.get k = some s :=
  orStop_eq_ok

structure Addressed (inet : Inet) (j : Json) (read : BitVec 128 → BitVec 128)
    (conf : AlMemberConf) : Prop where
  inet4 : j.get "iptype" = some "ipv4" →
    conf.addr.family = afInet ∧ (j.get "address").bind inet.pton4 = some conf.addr.naddr4
  inet6 : j.get "iptype" = some "ipv6" → conf.addr.family = afInet6 ∧
    ∃ a, (j.get "address").bind inet.pton6 = some a ∧ conf.addr.naddr6 = read a

theorem memberAddress_ok (h : memberAddress inet j conf₀ = .ok conf) :
    Addressed inet j (fun a => a) conf ∧
      (j.get "iptype" = some "ipv4" ∨ j.get "iptype" = some "ipv6") := by
  simp only [memberAddress, bind_eq_ok, raw_eq_ok] at h
  obtain ⟨iptype, hiptype, h⟩ := h
  split at h
  · rename_i hv4
    subst hv4
    simp only [bind_eq_ok, raw_eq_ok, orStop_eq_ok] at h
    obtain ⟨address, haddr, ip, hip, h⟩ := h
    cases h
    refine ⟨⟨fun _ => ⟨rfl, by rw [haddr]; exact hip⟩, fun hv6 => ?_⟩, .inl hiptype⟩
    rw [hiptype] at hv6
    exact absurd hv6 (by decide)
  · split at h
    · rename_i hv6
      subst hv6
      simp only [bind_eq_ok, raw_eq_ok, orStop_eq_ok] at h
      obtain ⟨address, haddr, ip, hip, h⟩ := h
      cases h
      refine ⟨⟨fun hv4 => ?_, fun _ => ⟨rfl, ip, by rw [haddr]; exact hip, rfl⟩⟩, .inr hiptype⟩
      rw [hiptype] at hv4
      exact absurd hv4 (by decide)
    · cases h

theorem has_weight_of_memberRows (h : memberRows j mid = .ok rows) : j.has "weight" = true := by
  rw [memberRows, orStop_eq_ok] at h
  by_contra hnot
  have hmem : "weight" ∈ memberKeys j := by simp [memberKeys, hnot]
  obtain ⟨s, hs⟩ := Option.isSome_iff_exists.mp (isSome_of_rowsOf h hmem)
  exact hnot (Json.has_of_get hs)

theorem memberRequest_ok (h : memberRequest inet j mid conf₀ = .ok (rows, conf)) :
    Addressed inet j (fun a => a) conf ∧
      (j.get "iptype" = some "ipv4" ∨ j.get "iptype" = some "ipv6") ∧
      (∃ p, j.get "port" = some p ∧ conf.port = htons (stn16 p)) ∧ conf.weight = 0 ∧
      conf.mid = UInt32.ofNat (mid % 65536) ∧ j.has "weight" = true ∧
      rowsOf "member" (nts mid) (memberText j) (memberKeys j) = some rows := by
  simp only [memberRequest, bind_eq_ok] at h
  obtain ⟨conf₁, hchecks, rows', hrows, h⟩ := h
  cases h
  have hhas := has_weight_of_memberRows hrows
  rw [memberRows, orStop_eq_ok] at hrows
  have hweight : memberWeight j = 0 := if_pos hhas
  rw [memberChecks] at hchecks
  split at hchecks
  · simp only [bind_eq_ok, memberPort, raw_eq_ok] at hchecks
    obtain ⟨conf₂, haddr, q, ⟨p, hp, hq⟩, hchecks⟩ := hchecks
    split at hq
    · cases hq
    · cases hq
      cases hchecks
      obtain ⟨hread, hfam⟩ := memberAddress_ok haddr
      exact ⟨⟨hread.inet4, hread.inet6⟩, hfam, ⟨p, hp, rfl⟩, hweight, rfl, hhas, hrows⟩
  · cases hchecks

theorem given_fill_iff (mid : ℕ) {read : BitVec 128 → BitVec 128} (hread : Addressed inet j read conf)
    {p : String} (hp : j.get "port" = some p) (m : AlMember) :
    Given inet j mid (fill conf m) ↔
      conf.mid.toNat = mid ∧ conf.port = stn16 p ∧ weightGiven j = some conf.weight ∧
        (j.get "iptype" = some "ipv6" → ∀ a ∈ (j.get "address").bind inet.pton6,
          if m.addr.family = afInet then m.addr.naddr6 = a else read a = a) := by
  have haddr : (fill conf m).addr =
      if m.addr.family = afInet then m.addr.assign4 conf.addr else conf.addr := rfl
  constructor
  · intro h
    refine ⟨h.mid, ?_, h.weight, fun hv6 a ha => ?_⟩
    · have hport : htons conf.port = htons (stn16 p) := h.port p hp
      rw [← htons_htons conf.port, hport, htons_htons]
    · obtain ⟨_, a', ha', hread'⟩ := hread.inet6 hv6
      have hslot := (h.inet6 hv6).2
      rw [haddr, ha] at hslot
      rw [ha] at ha'
      cases ha'
      split at hslot
      · rename_i hold
        rw [if_pos hold]
        exact (Option.some.inj hslot).symm
      · rename_i hold
        rw [if_neg hold, ← hread']
        exact (Option.some.inj hslot).symm
  · rintro ⟨hmid, hport, hweight, hslot⟩
    refine ⟨hmid, ?_, hweight, fun hv4 => ?_, fun hv6 => ?_⟩
    · intro p' hp'
      rw [hp] at hp'
      cases hp'
      exact congrArg htons hport
    · rw [haddr]
      split
      · exact hread.inet4 hv4
      · exact hread.inet4 hv4
    · obtain ⟨hfam, a, ha, hnaddr⟩ := hread.inet6 hv6
      have hslot := hslot hv6 a ha
      rw [haddr, ha]
      split
      · rename_i hold
        rw [if_pos hold] at hslot
        exact ⟨hfam, congrArg some hslot.symm⟩
      · rename_i hold
        rw [if_neg hold] at hslot
        exact ⟨hfam, congrArg some (hslot.symm.trans hnaddr.symm)⟩

theorem memberOfRows_ok {d : Fields} (hd : ∀ k ∈ ["iptype", "port", "address"], d.find k = j.get k)
    (hfam : j.get "iptype" = some "ipv4" ∨ j.get "iptype" = some "ipv6")
    (hconf : Addressed inet j (fun a => a) conf) {p : String} (hp : j.get "port" = some p)
    (before : AlMemberConf) (id : String) :
    ∃ f, memberOfRows inet before id d = some f ∧ Addressed inet j firstWord f ∧
      f.port = stn16 p ∧ f.mid = stn32 id ∧ f.weight = ((d.find "weight").map stn16).getD 0 := by
  have hport : d.get "port" = p := Fields.get_of_find ((hd "port" (by decide)).trans hp)
  rcases hfam with hv4 | hv6
  · obtain ⟨address, haddr, hip⟩ := Option.bind_eq_some_iff.mp (hconf.inet4 hv4).2
    have hiptype : d.get "iptype" = "ipv4" :=
      Fields.get_of_find ((hd "iptype" (by decide)).trans hv4)
    have haddress : d.get "address" = address :=
      Fields.get_of_find ((hd "address" (by decide)).trans haddr)
    simp only [memberOfRows, hiptype, haddress, hip, if_true, hport, Option.map_some]
    refine ⟨_, rfl, ⟨fun _ => ⟨rfl, (hconf.inet4 hv4).2⟩, fun hv6 => ?_⟩, rfl, rfl, rfl⟩
    rw [hv4] at hv6
    exact absurd hv6 (by decide)
  · obtain ⟨_, a, ha, _⟩ := hconf.inet6 hv6
    obtain ⟨address, haddr, hip⟩ := Option.bind_eq_some_iff.mp ha
    have hiptype : d.get "iptype" = "ipv6" :=
      Fields.get_of_find ((hd "iptype" (by decide)).trans hv6)
    have haddress : d.get "address" = address :=
      Fields.get_of_find ((hd "address" (by decide)).trans haddr)
    simp only [memberOfRows, hiptype, haddress, hip, hport, Option.map_some]
    rw [if_neg (by decide)]
    refine ⟨_, rfl, ⟨fun hv4 => ?_, fun _ => ⟨rfl, a, ha, rfl⟩⟩, rfl, rfl, rfl⟩
    rw [hv6] at hv4
    exact absurd hv4 (by decide)

theorem stn32_nts_toNat_iff (n : ℕ) : (stn32 (nts n)).toNat = n ↔ n < 2 ^ 32 := by
  rw [stn32_nts]
  split
  · simp
  · rename_i h
    simp only [UInt32.toNat_zero, h, iff_false]
    omega

/-- A copy gets the port swapped twice and the low half of the id. -/
theorem given_copy_iff (hreq : memberRequest inet j mid conf₀ = .ok (rows, conf)) (m : AlMember) :
    Given inet j mid (fill conf m) ↔
      mid < 65536 ∧ (∀ p ∈ j.get "port", htons (stn16 p) = stn16 p) ∧ weightGiven j = some 0 ∧
        (j.get "iptype" = some "ipv6" → m.addr.family = afInet →
          (j.get "address").bind inet.pton6 = some m.addr.naddr6) := by
  obtain ⟨hread, -, ⟨p, hp, hport⟩, hweight, hmid, -, -⟩ := memberRequest_ok hreq
  have hsmall : conf.mid.toNat = mid ↔ mid < 65536 := by
    rw [hmid, UInt32.toNat_ofNat', Nat.mod_eq_of_lt (by omega)]
    omega
  have hports : (∀ p ∈ j.get "port", htons (stn16 p) = stn16 p) ↔ htons (stn16 p) = stn16 p := by
    simp [hp]
  rw [given_fill_iff mid hread hp m, hsmall, hport, hweight, hports]
  refine and_congr_right' (and_congr_right' (and_congr_right' (forall_congr' fun hv6 => ?_)))
  obtain ⟨_, a, ha, _⟩ := hread.inet6 hv6
  simp only [ha, Option.mem_def, Option.some.injEq, forall_eq', if_true_right, eq_comm]

theorem memberOfRows_stored {db : List Row} (hreq : memberRequest inet j mid conf₀ = .ok (rows, conf))
    (hdb : db.filter (Row.belongs "member" (nts mid)) = rows) (before : AlMemberConf) :
    (∀ g ∈ j.get "group", (object (liveRows db) "member" (nts mid)).get "group" = g) ∧
      ∃ f, memberOfRows inet before (nts mid) (object (liveRows db) "member" (nts mid)) = some f ∧
        ∀ slot, Given inet j mid (fill f slot) ↔ mid < 2 ^ 32 ∧ weightGiven j = some 0 ∧
          (j.get "iptype" = some "ipv6" → ∀ a ∈ (j.get "address").bind inet.pton6,
            if slot.addr.family = afInet then slot.addr.naddr6 = a else a.toNat < 2 ^ 32) := by
  obtain ⟨hread, hfam, ⟨p, hp, -⟩, -, -, hhas, hrows⟩ := memberRequest_ok hreq
  have hfields := object_rowsOf hrows (live_of_rowsOf hrows hdb)
  have hd : ∀ k ∈ ["iptype", "port", "address"],
      (object (liveRows db) "member" (nts mid)).find k = j.get k := by
    simp [hfields, memberKeys, memberText]
  have hnone : (object (liveRows db) "member" (nts mid)).find "weight" = none := by
    simp [hfields, memberKeys, hhas]
  obtain ⟨f, hf, hfread, hfport, hfmid, hfweight⟩ := memberOfRows_ok hd hfam hread hp before (nts mid)
  rw [hnone] at hfweight
  refine ⟨fun g hg => ?_, f, hf, fun slot => ?_⟩
  · apply Fields.get_of_find
    simpa [hfields, memberKeys, memberText] using hg
  · rw [given_fill_iff mid hfread hp slot, hfmid, stn32_nts_toNat_iff, hfweight]
    simp only [firstWord_eq_iff, hfport, true_and]
    rfl

end Accepted

theorem member_restored_iff {inet : Inet} {j : Json} {mid : ℕ} {rows db : List Row}
    {conf conf₀ : AlMemberConf} (before : AlMemberConf) (live : List AlMember) (slot : AlMember)
    (hreq : memberRequest inet j mid conf₀ = .ok (rows, conf))
    (hdb : db.filter (Row.belongs "member" (nts mid)) = rows) :
    MemberRestored inet j mid db conf before live slot ↔ MemberSurvives inet j mid live slot := by
  obtain ⟨hgroup, f, hf, hloaded⟩ := memberOfRows_stored hreq hdb before
  have hcopy := given_copy_iff hreq
  rw [MemberRestored]
  constructor
  · rintro ⟨hlive, f', hf', hin, hgiven⟩
    rw [hf] at hf'
    cases hf'
    obtain ⟨hwidth, hweight, hslot⟩ := (hloaded slot).mp hgiven
    have hfirst : live ≠ [] → mid < 65536 ∧ ∀ p ∈ j.get "port", htons (stn16 p) = stn16 p := by
      intro hne
      obtain ⟨m, hm⟩ := List.exists_mem_of_ne_nil live hne
      obtain ⟨hsmall, hport, -⟩ := (hcopy m).mp (hlive m hm)
      exact ⟨hsmall, hport⟩
    refine ⟨fun g hg => ?_, hweight, hwidth, fun hne => (hfirst hne).1, fun hne => (hfirst hne).2,
      fun hv6 m hm hold => ?_, hslot⟩
    · rw [← hin g hg, hgroup g hg]
    · obtain ⟨-, -, -, haddr⟩ := (hcopy m).mp (hlive m hm)
      exact haddr hv6 hold
  · intro h
    refine ⟨fun m hm => ?_, f, hf, fun g hg => ?_, (hloaded slot).mpr ⟨h.width, h.weight, h.loaded⟩⟩
    · have hne := List.ne_nil_of_mem hm
      exact (hcopy m).mpr ⟨h.small hne, h.port hne, h.weight, fun hv6 => h.copied hv6 m hm⟩
    · rw [inGroup, hgroup g hg, h.group g hg]

def webMember (port : String) : Json :=
  jsonOf [("iptype", "ipv4"), ("address", "10.0.0.1"), ("port", port), ("group", "1"),
    ("weight", "0")]

def blankConf : AlMemberConf :=
  ⟨0, 0, 0, ⟨0, 0, 0, 0⟩⟩

theorem added_of_isOk (inet : Inet) (j : Json) (mid : ℕ) (conf₀ : AlMemberConf)
    (h : (memberRequest inet j mid conf₀).isOk = true) :
    ∃ rows conf, memberRequest inet j mid conf₀ = .ok (rows, conf) ∧
      rows.filter (Row.belongs "member" (nts mid)) = rows := by
  cases hreq : memberRequest inet j mid conf₀ with
  | error e =>
    rw [hreq] at h
    cases h
  | ok r =>
    obtain ⟨_, _, _, _, _, _, hrows⟩ := memberRequest_ok hreq
    exact ⟨r.1, r.2, rfl, filter_rowsOf hrows⟩

theorem symmetric_port_restored : ∃ rows conf,
    memberRequest someInet (webMember "257") 7 blankConf = .ok (rows, conf) ∧
      MemberRestored someInet (webMember "257") 7 rows conf blankConf [.zero] .zero := by
  obtain ⟨rows, conf, hreq, hdb⟩ := added_of_isOk someInet (webMember "257") 7 blankConf
    (by decide +kernel)
  refine ⟨rows, conf, hreq, (member_restored_iff blankConf [.zero] .zero hreq hdb).mpr ?_⟩
  exact ⟨by decide +kernel, by decide +kernel, by decide, fun _ => by decide,
    fun _ => by decide +kernel, fun h => absurd h (by decide +kernel),
    fun h => absurd h (by decide +kernel)⟩

theorem live_port_swapped : ∃ rows conf,
    memberRequest someInet (webMember "80") 7 blankConf = .ok (rows, conf) ∧
      ¬ MemberRestored someInet (webMember "80") 7 rows conf blankConf [.zero] .zero := by
  obtain ⟨rows, conf, hreq, _⟩ := added_of_isOk someInet (webMember "80") 7 blankConf
    (by decide +kernel)
  refine ⟨rows, conf, hreq, fun h => ?_⟩
  have hall : ((memberRequest someInet (webMember "80") 7 blankConf).toOption.all fun r =>
      (fill r.2 .zero).port != htons (stn16 "80")) = true := by
    decide +kernel
  rw [hreq] at hall
  simp only [Except.toOption, Option.all_some, bne_iff_ne, ne_eq] at hall
  exact hall ((h.1 .zero (List.mem_singleton_self _)).port "80" rfl)

end Aware.Rest
