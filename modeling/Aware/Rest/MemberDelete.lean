import Aware.Rest.References

/-!
# Deleting members

A deletion names a group by its id or by its name, and at most one member of it. The rows it marks
and the copies it changes are compared with those of the members that are meant.
-/
namespace Aware.Rest
open Aware.Member

def NamesGroup (w : World Tables) (j : Json) (g : String) : Prop :=
  if j.has "group_id" then j.get "group_id" = some g
  else ∃ name ∈ j.get "group_name", (object (liveRows w.rows) "group" g).find "name" = some name

def askedMember (j : Json) : String :=
  (j.get "member_id").getD ""

def Row.ofMembers (r : Row) : Bool :=
  r.key1 == "member" || r.key1 == "group"

def copyKeys (db : List Row) (g : String) : List UInt64 :=
  (filtersWithGroup db g).map (alMakeKey · (stn32 g))

/-- Only the members `ms` of the group `g` are no longer live, and only the copies of the group
have lost them. -/
structure Without (w w' : World Tables) (g : String) (ms : List String) : Prop where
  rows : w'.rows.filter Row.ofMembers =
    (retire (fun r => r.key1 == "member" && ms.contains r.key2) w.rows).filter Row.ofMembers
  copies : ∀ key, w'.tables.view.groups key = (w.tables.view.groups key).map fun c =>
    (c.1, if key ∈ copyKeys w.rows g then c.2.filter fun m => !(ms.map stn32).contains m.mid
      else c.2)

def MembersDeleted (w w' : World Tables) (j : Json) : Prop :=
  ∃ g, NamesGroup w j g ∧ membersToDelete w g (askedMember j) ≠ [] ∧
    Without w w' g (membersToDelete w g (askedMember j))

/-- The request names a member and its own group; no group has the id of the member; no copy has
more members with this id than it is visited times. -/
structure Deletable (w : World Tables) (j : Json) (gid mid : String) : Prop where
  named : NamesGroup w j gid
  member : mid ≠ ""
  group : ∀ r ∈ liveRows w.rows, r.key1 = "group" → r.key2 ≠ mid
  once : ∀ fid ∈ filtersWithGroup w.rows gid,
    ∀ mn ∈ w.tables.groups (alMakeKey fid (stn32 gid)),
      mn.chain.members.countP (AlMember.named (stn32 mid)) ≤ (filtersWithGroup w.rows gid).count fid

def Reply.code {T : Type} : Reply T → Option Int
  | .returned rc _ _ _ => some rc
  | _ => none

theorem Reply.of_code {T : Type} {reply : Reply T} {rc : Int} (h : reply.code = some rc) :
    ∃ errno objects w, reply = .returned rc errno objects w := by
  cases reply with
  | returned rc errno objects w =>
    cases h
    exact ⟨errno, objects, w, rfl⟩
  | thrown w => cases h
  | fault => cases h

section Returned
variable {T V : Type} {c : Callees T V} {inet : Inet} {p : Points} {w w' : World T}
  {errno : Option Errno} {objects : List Object}

theorem Removal.run_returned {r : Removal} (h : r.run c p w = .returned 0 errno objects w') :
    w'.rows = retire r.marks w.rows ∧ c.delete w.tables (r.call w'.rows) = some (0, w'.tables) := by
  rw [Removal.run] at h
  split at h
  · dsimp only at h
    split at h
    · cases h
    · next rc t hcall =>
        split at h
        · next hrc =>
            cases h
            exact ⟨rfl, hrc ▸ hcall⟩
        · cases h
  · cases h

theorem delete_returned {d : Delete} (h : handle c inet p w (.delete d) = .returned 0 errno objects w') :
    ∃ r, removal inet p w d = .ok r ∧ w'.rows = retire r.marks w.rows ∧
      c.delete w.tables (r.call w'.rows) = some (0, w'.tables) := by
  cases hr : removal inet p w d with
  | error e =>
    have hearnest := earnest_removal inet p w d
    rw [hr] at hearnest
    simp only [handle, hr] at h
    cases e with
    | failed errno => cases h
    | idle errno => exact absurd rfl (hearnest errno)
    | thrown => cases h
  | ok r =>
    simp only [handle, hr] at h
    exact ⟨r, rfl, Removal.run_returned h⟩

end Returned

section Rows
variable {w : World Tables} {db : List Row} {gid mid : String}

theorem filter_retire_eq_iff {q p p' : Row → Bool} (hq : ∀ r, q { r with isLive := false } = q r) :
    (retire p db).filter q = (retire p' db).filter q ↔
      ∀ r ∈ liveRows db, q r = true → p r = p' r := by
  have hkeep : ∀ p : Row → Bool, (retire p db).filter q = retire p (db.filter q) := by
    intro p
    rw [retire, List.filter_map]
    congr 2
    funext r
    simp only [Function.comp_apply]
    split
    · exact hq r
    · rfl
  rw [hkeep, hkeep, retire, retire, List.map_inj_left]
  constructor
  · intro h r hr hqr
    obtain ⟨hr, hlive⟩ := mem_liveRows.mp hr
    have hsame := congrArg Row.isLive (h r (List.mem_filter.mpr ⟨hr, hqr⟩))
    cases hp : p r <;> cases hp' : p' r <;> simp_all
  · intro h r hr
    obtain ⟨hr, hqr⟩ := List.mem_filter.mp hr
    cases hlive : r.isLive with
    | true => rw [h r (mem_liveRows.mpr ⟨hr, hlive⟩) hqr]
    | false =>
      have hsame : { r with isLive := false } = r := by rw [← hlive]
      rw [hsame, ite_self, ite_self]

theorem exists_row_of_find {key1 key2 k s : String} (h : (object db key1 key2).find k = some s) :
    ∃ r ∈ db, r.belongs key1 key2 = true ∧ r.key3 = k ∧ r.value = s := by
  obtain ⟨e, he, rfl⟩ := Option.map_eq_some_iff.mp h
  have hmem := List.mem_reverse.mp (List.mem_of_find?_eq_some he)
  obtain ⟨r, hr, rfl⟩ := List.mem_map.mp hmem
  obtain ⟨hr, hbelongs⟩ := List.mem_filter.mp hr
  exact ⟨r, hr, hbelongs, by simpa using List.find?_some he, rfl⟩

theorem mem_membersToDelete {i : String} :
    i ∈ membersToDelete w gid mid ↔ (∃ r ∈ liveRows w.rows, r.belongs "member" i = true) ∧
      (mid = "" ∨ i = mid) ∧ (object (liveRows w.rows) "member" i).get "group" = gid := by
  rw [membersToDelete, List.mem_filter, mem_ids]
  simp

theorem mem_membersToDelete_of_named (hmid : mid ≠ "") (hne : membersToDelete w gid mid ≠ [])
    {i : String} : i ∈ membersToDelete w gid mid ↔ i = mid := by
  have hone : ∀ i ∈ membersToDelete w gid mid, i = mid :=
    fun i hi => (mem_membersToDelete.mp hi).2.1.resolve_left hmid
  refine ⟨hone i, fun heq => ?_⟩
  obtain ⟨i', hi'⟩ := List.exists_mem_of_ne_nil _ hne
  rw [heq]
  exact hone i' hi' ▸ hi'

theorem memberInfo_asked {p : Points} {j : Json} (h : memberInfo p w j = .ok (gid, mid)) :
    askedMember j = mid := by
  -- what follows the group is the same on every way to it
  have hrest : ∀ g, (if j.has "member_id" then do let m ← j.raw "member_id"; pure (g, m)
      else do let m ← pure ""; pure (g, m)) = Except.ok (gid, mid) → askedMember j = mid := by
    intro g hg
    split at hg
    · obtain ⟨m, hm, hg⟩ := bind_eq_ok.mp hg
      cases hg
      rw [Json.raw, orStop_eq_ok] at hm
      rw [askedMember, hm]
      rfl
    · next hnone =>
        cases hg
        cases hget : j.get "member_id" with
        | none =>
          rw [askedMember, hget]
          rfl
        | some s => exact absurd (Json.has_of_get hget) hnone
  simp only [memberInfo] at h
  split at h
  · obtain ⟨g, -, h⟩ := bind_eq_ok.mp h
    exact hrest g h
  · split at h
    · obtain ⟨name, -, h⟩ := bind_eq_ok.mp h
      split at h
      · exact hrest _ h
      · cases h
    · cases h

end Rows

section Effect
variable {w w' : World Tables} {gid mid : String} {ms : List String}

theorem without_rows_iff (hms : ∀ i, i ∈ ms ↔ i = mid)
    (hrows : w'.rows = retire (fun r => r.key2 == mid) w.rows) :
    w'.rows.filter Row.ofMembers =
        (retire (fun r => r.key1 == "member" && ms.contains r.key2) w.rows).filter Row.ofMembers ↔
      ∀ r ∈ liveRows w.rows, r.key1 = "group" → r.key2 ≠ mid := by
  have hcontains : ∀ k, ms.contains k = (k == mid) := by
    intro k
    rw [Bool.eq_iff_iff, List.contains_iff_mem, hms, beq_iff_eq]
  rw [hrows, filter_retire_eq_iff fun r => rfl]
  simp only [hcontains]
  constructor
  · intro h r hr hgroup
    have hsame := h r hr (by simp [Row.ofMembers, hgroup])
    simpa [hgroup] using hsame
  · intro h r hr hof
    rcases Bool.or_eq_true_iff.mp hof with hmember | hgroup
    · rw [hmember, Bool.true_and]
    · rw [beq_iff_eq] at hgroup
      simp [hgroup, h r hr hgroup]

theorem mem_copyKeys {db : List Row} {g : String} {key : UInt64} :
    key ∈ copyKeys db g ↔ ∃ fid ∈ filtersWithGroup db g, alMakeKey fid (stn32 g) = key :=
  List.mem_map

theorem without_copies_iff (hms : ∀ i, i ∈ ms ↔ i = mid)
    (hcopies : ∀ key, w'.tables.view.groups key =
      (w.tables.view.groups key).map (removed (stn32 mid) ((copyKeys w.rows gid).count key))) :
    (∀ key, w'.tables.view.groups key = (w.tables.view.groups key).map fun c =>
        (c.1, if key ∈ copyKeys w.rows gid then c.2.filter fun m => !(ms.map stn32).contains m.mid
          else c.2)) ↔
      ∀ fid ∈ filtersWithGroup w.rows gid, ∀ mn ∈ w.tables.groups (alMakeKey fid (stn32 gid)),
        mn.chain.members.countP (AlMember.named (stn32 mid)) ≤
          (filtersWithGroup w.rows gid).count fid := by
  have hcontains : ∀ m : AlMember, (ms.map stn32).contains m.mid = m.named (stn32 mid) := by
    intro m
    rw [Bool.eq_iff_iff, List.contains_iff_mem, List.mem_map, AlMember.named, beq_iff_eq]
    simp only [hms, exists_eq_left]
    exact eq_comm
  simp only [hcopies, hcontains]
  constructor
  · intro h fid hfid mn hmn
    have hkey := h (alMakeKey fid (stn32 gid))
    simp only [view_groups, Option.mem_def.mp hmn, Option.map_some, Option.some.injEq, removed,
      Prod.mk.injEq, true_and, if_pos (mem_copyKeys.mpr ⟨fid, hfid, rfl⟩)] at hkey
    rw [copyKeys, count_keys] at hkey
    exact (Keyed.iterate_eraseP_eq_filter_iff _ _).mp hkey
  · intro h key
    refine Option.map_congr fun c hc => Prod.ext rfl ?_
    split
    · next hkey =>
        obtain ⟨fid, hfid, rfl⟩ := mem_copyKeys.mp hkey
        obtain ⟨mn, hmn, rfl⟩ := Option.map_eq_some_iff.mp hc
        rw [removed, copyKeys, count_keys]
        exact (Keyed.iterate_eraseP_eq_filter_iff _ _).mpr (h fid hfid mn hmn)
    · next hkey =>
        rw [List.count_eq_zero_of_not_mem hkey]
        rfl

end Effect

/-- A deletion of members that succeeds does what it is asked exactly when it is for one member,
of the group meant, and the ids are unambiguous. -/
theorem member_delete_iff {inet : Inet} {e : Supply} {p : Points} {w w' : World Tables} {j : Json}
    {gid mid : String} {errno : Option Errno} {objects : List Object}
    (hids : ∀ r ∈ liveRows w.rows, r.key1 = "member" → r.key2 ≠ "")
    (hc : w.tables.Counted (stn32 gid) (filtersWithGroup w.rows gid))
    (hinfo : memberInfo p w j = .ok (gid, mid))
    (h : handle (callees inet e) inet p w (.delete (.member (some j))) =
      .returned 0 errno objects w') :
    MembersDeleted w w' j ↔ Deletable w j gid mid := by
  obtain ⟨r, hr, hrows, hrun⟩ := delete_returned h
  obtain ⟨j', gid', mid', hj, hinfo', hne, hmarks, hcall, -⟩ := memberDelete_ok hr
  cases hj
  cases hinfo.symm.trans hinfo'
  rw [hmarks] at hrows
  rw [hcall] at hrun
  have hcopies := (hc.overCopies (List.Subset.refl _) hrun).1
  rw [MembersDeleted, memberInfo_asked hinfo]
  constructor
  · rintro ⟨g, hnamed, hmembers, hwithout⟩
    -- a member that is to be deleted has rows, and those that are marked have the id `mid`
    have hone : ∀ i ∈ membersToDelete w g mid, i = mid := by
      intro i hi
      obtain ⟨⟨row, hrow, hbelongs⟩, -⟩ := mem_membersToDelete.mp hi
      obtain ⟨hkey1, rfl⟩ := belongs_iff.mp hbelongs
      have hsame := (filter_retire_eq_iff fun r => rfl).mp (hrows ▸ hwithout.rows) row hrow
        (by simp [Row.ofMembers, hkey1])
      simpa [hkey1, hi] using hsame
    obtain ⟨i, hi⟩ := List.exists_mem_of_ne_nil _ hmembers
    obtain rfl := hone i hi
    obtain ⟨⟨row, hrow, hbelongs⟩, -, hgroup⟩ := mem_membersToDelete.mp hi
    have hmid : i ≠ "" := by
      obtain ⟨hkey1, rfl⟩ := belongs_iff.mp hbelongs
      exact hids row hrow hkey1
    have hgid := (mem_membersToDelete.mp ((mem_membersToDelete_of_named hmid hne).mpr rfl)).2.2
    obtain rfl : g = gid := hgroup.symm.trans hgid
    have hms := fun i' => mem_membersToDelete_of_named hmid hne (i := i')
    exact ⟨hnamed, hmid, (without_rows_iff hms hrows).mp hwithout.rows,
      (without_copies_iff hms hcopies).mp hwithout.copies⟩
  · intro hd
    have hms := fun i => mem_membersToDelete_of_named hd.member hne (i := i)
    exact ⟨gid, hd.named, hne, (without_rows_iff hms hrows).mpr hd.group,
      (without_copies_iff hms hcopies).mpr hd.once⟩

def loadedCopy : Option AlMemberNode :=
  (alMemberInsert (initChain zeroCluster) (conf4 3 0 1) none).map (AlMemberNode.mk 0)

def twoGroups : World Tables where
  rows := insertGroup 1 "a" ++ insertGroup 5 "b" ++
    (filterRows (webFilter "tcp") 2).toOption.getD [] ++
    (memberRows (webMember "80") 3).toOption.getD []
  tables := { Tables.empty with
    groups := Tables.empty.groups.set (alMakeKey 2 1) loadedCopy }

def deleteMember (j : Json) : Reply Tables :=
  handle (callees someInet ample) someInet (faithful none) twoGroups (.delete (.member (some j)))

theorem twoGroups_counted : twoGroups.tables.Counted 1 (filtersWithGroup twoGroups.rows "1") := by
  have hfids : filtersWithGroup twoGroups.rows "1" = [2] := by decide +kernel
  rw [Tables.Counted, hfids, List.forall_mem_singleton]
  decide +kernel

theorem member_of_id_deleted : ∃ errno objects w',
    deleteMember (jsonOf [("group_id", "1"), ("member_id", "3")]) = .returned 0 errno objects w' ∧
      MembersDeleted twoGroups w' (jsonOf [("group_id", "1"), ("member_id", "3")]) := by
  have hcode : (deleteMember (jsonOf [("group_id", "1"), ("member_id", "3")])).code = some 0 := by
    decide +kernel
  obtain ⟨errno, objects, w', h⟩ := Reply.of_code hcode
  have hids : ∀ r ∈ liveRows twoGroups.rows, r.key1 = "member" → r.key2 ≠ "" := by
    decide +kernel
  have hinfo : memberInfo (faithful none) twoGroups (jsonOf [("group_id", "1"), ("member_id", "3")]) =
      .ok ("1", "3") := rfl
  refine ⟨errno, objects, w', h, (member_delete_iff hids twoGroups_counted hinfo h).mpr ?_⟩
  have hfids : filtersWithGroup twoGroups.rows "1" = [2] := by decide +kernel
  refine ⟨rfl, by decide, by decide +kernel, ?_⟩
  rw [hfids, List.forall_mem_singleton]
  decide +kernel

theorem member_of_other_group_deleted : ∃ errno objects w',
    deleteMember (jsonOf [("group_name", "b"), ("member_id", "3")]) = .returned 0 errno objects w' ∧
      ¬ MembersDeleted twoGroups w' (jsonOf [("group_name", "b"), ("member_id", "3")]) := by
  have hcode : (deleteMember (jsonOf [("group_name", "b"), ("member_id", "3")])).code = some 0 := by
    decide +kernel
  obtain ⟨errno, objects, w', h⟩ := Reply.of_code hcode
  refine ⟨errno, objects, w', h, ?_⟩
  rintro ⟨g, ⟨name, hname, hg⟩, hmembers, -⟩
  cases hname
  obtain ⟨r, hr, hbelongs, -, hvalue⟩ := exists_row_of_find hg
  obtain ⟨hkey1, rfl⟩ := belongs_iff.mp hbelongs
  have honly : ∀ r ∈ liveRows twoGroups.rows, r.key1 = "group" → r.value = "b" →
      membersToDelete twoGroups r.key2 "3" = [] := by
    decide +kernel
  exact hmembers (honly r hr hkey1 hvalue)

end Aware.Rest
