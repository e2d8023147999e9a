import Aware.Lib.Undo
import Aware.Rest.Effects

/-!
# Atomicity of the handlers

Exactly when a handler that fails leaves the live rows and the tables as they were, and one that
succeeds has the object in both or in neither.
-/
namespace Aware.Rest
open Aware.Service (netOrder)

section Atomic
variable {T V : Type} (c : Callees T V) (p : Points) (w : World T)

def Unchanged (w' : World T) : Prop :=
  liveRows w'.rows = liveRows w.rows ∧ c.view w'.tables = c.view w.tables

def Present (w' : World T) (o : Object) : Prop :=
  o.InRows w'.rows ∧ c.Holds (c.view w'.tables) o

def Absent (w' : World T) (o : Object) : Prop :=
  ¬ o.InRows w'.rows ∧ c.Lacks (c.view w'.tables) o

/-- A failure changes nothing, a success has objects, and they are all in the rows and in the
tables, or in neither. -/
def Atomic (req : Request) : Reply T → Prop
  | .returned rc _ objects w' =>
    if rc = 0 then
      objects ≠ [] ∧ ∀ o ∈ objects,
        match req with
        | .add _ => Present c w' o
        | .delete _ => Absent c w' o
    else Unchanged c w w'
  | .thrown _ => True
  | .fault => True

def Spared (id : ℕ) : Prop :=
  p.rollback = true → ∀ r ∈ w.rows, r.isLive = true → r.key2 ≠ Numerals.formatInt32 id

/-- The deletion by the transaction id takes back just the rows of the addition. It looks for 32
bits of the id, where routes do not have it. -/
def Undone (id : ℕ) : Object → Prop
  | .route _ _ => False
  | _ => p.rollback = true ∧ id < 2 ^ 31 ∧ ∀ r ∈ w.rows, r.isLive = true → r.key2 ≠ nts id

structure Addition.Prepared (a : Addition) : Prop where
  text : a.rows = none → a.caught = true → Spared p w a.id
  insert : a.rows.isSome → p.insert = false → Spared p w a.id
  ready : a.rows.isSome → p.insert = true → a.ready = false → a.caught = true →
    Undone p w a.id a.object

def Removal.Whole (r : Removal) : Prop :=
  ∀ o ∈ r.objects, ∀ row ∈ w.rows, row.isLive = true → o.owns row = true → r.marks row = true

def Removal.Kept (r : Removal) : Prop :=
  ∀ row ∈ w.rows, row.isLive = true → r.marks row = false

/-- The requests that are answered with success although nothing is done. -/
def Idle : Add → Prop
  | .member (some j) _ =>
    memberNeeds.all j.has = false ∨ (j.has "group" = false ∧ j.has "group_name" = false)
  | .route (some j) =>
    routeNeeds.all j.has = false ∨ ∃ name ∈ j.get "name",
      p.nic name = none ∨ (j.has "dstip" = false ∧ j.has "srcip" = false)
  | _ => False

end Atomic

section Safe
variable (inet : Inet) (e : Supply) (p : Points) (w : World Tables)

def AddCall.Safe (db : List Row) (t : Tables) (id : ℕ) (undone : Prop) : AddCall → Prop
  | .filterInsert f => ∀ r ∈ f.request, FilterInserts inet e db t undone r
  | .memberAdd gid conf fids => MemberAdds e t gid (UInt32.ofNat id) conf fids undone
  | .routerInsert key _ _ oif =>
    (maskOf (netOrder key.mask)).isSome = true → RouteInserts e t undone key oif
  | .dnsInsert d gid dnsid =>
    undone ∧ (e.calloc = true → t.domains (domainBytes d) = some ⟨gid, dnsid⟩)

def DelCall.Safe (t : Tables) (whole kept : Prop) : DelCall → Prop
  | .filterDel f => ∀ r ∈ f.request, FilterDeletes t.filters kept r
  | .memberDelete gid mid fids => MemberDeletes t gid mid fids whole kept
  | .routerDelete _ => True
  | .refuse => kept
  | .hang => True

structure Addition.Safe (a : Addition) : Prop extends a.Prepared p w where
  call : ∀ rows, a.rows = some rows → p.insert = true → a.ready = true →
    a.call.Safe inet e (w.rows ++ rows) w.tables a.id (Undone p w a.id a.object)

def Removal.Safe (r : Removal) : Prop :=
  p.update = true → (r.call (retire r.marks w.rows)).Safe w.tables (r.Whole w) (r.Kept w)

def Safe : Request → Prop
  | .add a => ¬ Idle p a ∧ ∀ b, addition inet p w a = .ok b → b.Safe inet e p w
  | .delete d => ∀ r, removal inet p w d = .ok r → r.Safe p w

/-- The tables are as their functions leave them, and in the copies that a deletion of members
visits no counter is below the number of members. -/
structure Coherent (req : Request) : Prop where
  filters : w.tables.filters.Kept
  routes : ∃ live, Router.Tracks w.tables.routes live
  copies : ∀ j gid mid, req = .delete (.member (some j)) → memberInfo p w j = .ok (gid, mid) →
    w.tables.Counted (stn32 gid) (filtersWithGroup w.rows gid)

end Safe

section Rows
variable {T : Type} {p : Points} {w : World T} {id : ℕ}

theorem spared_iff : liveRows (rollback p id w.rows) = liveRows w.rows ↔ Spared p w id := by
  unfold rollback Spared liveRows
  split
  · rename_i hp
    rw [Undo.filter_filter_eq_iff]
    simp [hp]
  · rename_i hp
    simp [hp]

theorem formatInt32_notMem_routeTypes (n : ℕ) : Numerals.formatInt32 n ∉ routeTypes := by
  intro h
  have hhead := Numerals.formatInt32_head n
  have hall : (routeTypes.all fun s => !(s.toList.head?.any fun c => c.isDigit || c == '-')) = true := by
    decide
  have hnot := List.all_eq_true.mp hall _ h
  rw [hhead] at hnot
  cases hnot

theorem rollback_append_iff {rows : List Row} (hlive : ∀ r ∈ rows, r.isLive = true)
    (hne : rows ≠ []) :
    liveRows (rollback p id (w.rows ++ rows)) = liveRows w.rows ↔
      p.rollback = true ∧ (∀ r ∈ w.rows, r.isLive = true → r.key2 ≠ Numerals.formatInt32 id) ∧
        ∀ r ∈ rows, r.key2 = Numerals.formatInt32 id := by
  unfold rollback liveRows
  split
  · rename_i hp
    rw [Undo.undone_iff]
    refine ⟨fun h => ⟨hp, ?_, fun r hr => ?_⟩, fun h => ⟨?_, fun r hr _ => ?_⟩⟩
    · simpa using h.1
    · simpa using h.2 r hr (hlive r hr)
    · simpa using h.2.1
    · simpa using h.2.2 r hr
  · rename_i hp
    refine ⟨fun h => ?_, fun h => absurd h.1 hp⟩
    rw [List.filter_append, List.append_right_eq_self, List.filter_eq_self.mpr hlive] at h
    exact absurd h hne

theorem undone_iff {o : Object} {rows : List Row} (h : o.StoredBy id rows) :
    liveRows (rollback p id (w.rows ++ rows)) = liveRows w.rows ↔ Undone p w id o := by
  obtain ⟨r, hr, _⟩ := h.owns
  rw [rollback_append_iff h.live (List.ne_nil_of_mem hr)]
  -- one row tells where the ids of the rows are
  have hnum : o.keys id = [nts id] →
      ((p.rollback = true ∧ (∀ r ∈ w.rows, r.isLive = true → r.key2 ≠ Numerals.formatInt32 id) ∧
        ∀ r ∈ rows, r.key2 = Numerals.formatInt32 id) ↔
      p.rollback = true ∧ id < 2 ^ 31 ∧ ∀ r ∈ w.rows, r.isLive = true → r.key2 ≠ nts id) := by
    intro hkeys
    have hkey : ∀ r ∈ rows, r.key2 = nts id := by
      intro r hr
      simpa [hkeys] using h.keys r hr
    refine and_congr_right fun _ => ⟨fun ⟨hold, hnew⟩ => ?_, fun ⟨hid, hold⟩ => ?_⟩
    · have hfmt : Numerals.formatInt32 id = nts id := (hnew r hr).symm.trans (hkey r hr)
      rw [hfmt] at hold
      exact ⟨(Numerals.formatInt32_eq_repr_iff id).mp hfmt, hold⟩
    · have hfmt : Numerals.formatInt32 id = nts id := (Numerals.formatInt32_eq_repr_iff id).mpr hid
      rw [hfmt]
      exact ⟨hold, hkey⟩
  cases o with
  | filter _ _ => exact hnum rfl
  | member _ _ _ _ => exact hnum rfl
  | domain _ _ => exact hnum rfl
  | route _ _ =>
    refine iff_of_false (fun hall => ?_) fun h => h
    refine formatInt32_notMem_routeTypes id ?_
    rw [← hall.2.2 r hr]
    exact h.keys r hr

variable {m : Row → Bool} {db : List Row}

theorem retire_iff :
    liveRows (retire m db) = liveRows db ↔ ∀ r ∈ db, r.isLive = true → m r = false :=
  Undo.marked_iff fun _ => rfl

theorem mem_liveRows_retire {r : Row} :
    r ∈ liveRows (retire m db) ↔ r ∈ db ∧ r.isLive = true ∧ m r = false := by
  simp only [liveRows, retire, List.mem_filter, List.mem_map]
  constructor
  · rintro ⟨⟨r', hr', rfl⟩, hlive⟩
    cases hm : m r' with
    | false =>
      rw [hm] at hlive
      exact ⟨hr', hlive, hm⟩
    | true =>
      rw [hm] at hlive
      cases hlive
  · rintro ⟨hr, hlive, hm⟩
    exact ⟨⟨r, hr, by simp [hm]⟩, hlive⟩

theorem not_inRows_retire_iff {o : Object} : ¬ o.InRows (retire m db) ↔
      ∀ r ∈ db, r.isLive = true → o.owns r = true → m r = true := by
  simp only [Object.InRows, mem_liveRows_retire, not_exists, not_and, Bool.not_eq_true]
  constructor
  · intro h r hr hlive hown
    by_contra hm
    rw [h r ⟨hr, hlive, by simpa using hm⟩] at hown
    cases hown
  · rintro h r ⟨hr, hlive, hm⟩
    by_contra hown
    rw [h r hr hlive (by simpa using hown)] at hm
    cases hm

end Rows

section Run
variable {T V : Type} {c : Callees T V} {p : Points} {w : World T}

theorem Stop.reply_atomic_iff (e : Stop) (req : Request) :
    Atomic c w req (e.reply w) ↔ ∀ errno, e ≠ .idle errno := by
  cases e with
  | failed errno => simp [Stop.reply, Atomic, Unchanged]
  | idle errno => simp [Stop.reply, Atomic]
  | thrown => simp [Stop.reply, Atomic]

theorem Addition.throws_atomic_iff (a : Addition) (req : Request) (w' : World T) :
    Atomic c w req (a.throws w') ↔ (a.caught = true → Unchanged c w w') := by
  unfold Addition.throws
  split
  · rename_i h
    simp [Atomic, h]
  · rename_i h
    simp [Atomic, h]

theorem Addition.run_atomic_iff (a : Addition) (req : Add) :
    Atomic c w (.add req) (a.run c p w) ↔ a.Prepared p w ∧
      ∀ rows, a.rows = some rows → p.insert = true → a.ready = true →
        ∀ rc t, c.insert (w.rows ++ rows) w.tables a.call = some (rc, t) →
          if rc = 0 then c.Holds (c.view t) a.object
          else c.view t = c.view w.tables ∧ Undone p w a.id a.object := by
  have hkept : ∀ rows, Unchanged c w ⟨rollback p a.id rows, w.tables⟩ ↔
      liveRows (rollback p a.id rows) = liveRows w.rows := fun rows => and_iff_left rfl
  cases hrows : a.rows with
  | none =>
    simp only [Addition.run, hrows, Addition.throws_atomic_iff, hkept, spared_iff]
    refine ⟨fun h => ⟨⟨fun _ => h, ?_, ?_⟩, by simp⟩, fun h => h.1.text hrows⟩
    all_goals simp [hrows]
  | some rows =>
    have hstored : a.object.StoredBy a.id rows := a.stored rows hrows
    obtain ⟨r, hr, hown⟩ := hstored.owns
    have hprepared : a.Prepared p w ↔ (p.insert = false → Spared p w a.id) ∧
        (p.insert = true → a.ready = false → a.caught = true → Undone p w a.id a.object) := by
      constructor
      · exact fun h => ⟨h.insert (by rw [hrows]; rfl), h.ready (by rw [hrows]; rfl)⟩
      · rintro ⟨hinsert, hready⟩
        refine ⟨fun hnone => ?_, fun _ => hinsert, fun _ => hready⟩
        rw [hrows] at hnone
        cases hnone
    simp only [hprepared, Option.some.injEq, forall_eq']
    cases hins : p.insert with
    | false => simp [Addition.run, hrows, hins, Atomic, hkept, spared_iff]
    | true =>
      cases hready : a.ready with
      | false =>
        simp only [Addition.run, hrows, hins, hready, if_true, Bool.false_eq_true, if_false,
          Addition.throws_atomic_iff, hkept, undone_iff hstored]
        simp
      | true =>
        have hin : a.object.InRows (w.rows ++ rows) := by
          refine ⟨r, ?_, hown⟩
          simp [liveRows, hr, hstored.live r hr]
        simp only [Addition.run, hrows, hins, hready, if_true]
        cases hcall : c.insert (w.rows ++ rows) w.tables a.call with
        | none => simp [Atomic]
        | some out =>
          obtain ⟨rc, t⟩ := out
          by_cases hrc : rc = 0
          · simp [hrc, Atomic, Present, hin]
          · simp [hrc, Atomic, Unchanged, undone_iff hstored, and_comm]

theorem Removal.run_atomic_iff (r : Removal) (req : Delete) :
    Atomic c w (.delete req) (r.run c p w) ↔ (p.update = true →
      ∀ rc t, c.delete w.tables (r.call (retire r.marks w.rows)) = some (rc, t) →
        if rc = 0 then r.Whole w ∧ ∀ o ∈ r.objects, c.Lacks (c.view t) o
        else c.view t = c.view w.tables ∧ r.Kept w) := by
  unfold Removal.run
  cases hupd : p.update with
  | false => simp [Atomic, Unchanged]
  | true =>
    simp only [if_true, forall_const]
    cases hcall : c.delete w.tables (r.call (retire r.marks w.rows)) with
    | none => simp [Atomic]
    | some out =>
      obtain ⟨rc, t⟩ := out
      refine Iff.trans ?_ forall_returned.symm
      by_cases hrc : rc = 0
      · simp only [hrc, if_true, Atomic, Absent, not_inRows_retire_iff, Removal.Whole,
          and_iff_right r.nonempty]
        exact ⟨fun h => ⟨fun o ho => (h o ho).1, fun o ho => (h o ho).2⟩,
          fun h o ho => ⟨h.1 o ho, h.2 o ho⟩⟩
      · simp [hrc, Atomic, Unchanged, Removal.Kept, retire_iff, and_comm]

end Run

def Earnest {α : Type} (x : Except Stop α) : Prop :=
  ∀ errno, x ≠ .error (.idle errno)

section Earnest
variable {α β : Type}

@[simp] theorem earnest_ok (a : α) : Earnest (.ok a : Except Stop α) := by
  simp [Earnest]

@[simp] theorem earnest_pure (a : α) : Earnest (pure a : Except Stop α) :=
  earnest_ok a

@[simp] theorem earnest_failed (errno : Option Errno) :
    Earnest (.error (.failed errno) : Except Stop α) := by
  simp [Earnest]

@[simp] theorem earnest_fail (errno : Errno) : Earnest (.error (fail errno) : Except Stop α) :=
  earnest_failed _

@[simp] theorem earnest_thrown : Earnest (.error .thrown : Except Stop α) := by
  simp [Earnest]

@[simp] theorem not_earnest_idle (errno : Option Errno) :
    ¬ Earnest (.error (.idle errno) : Except Stop α) :=
  fun h => h errno rfl

@[simp] theorem earnest_orStop {e : Stop} {x : Option α} :
    Earnest (orStop e x) ↔ (x = none → Earnest (.error e : Except Stop α)) := by
  cases x <;> simp [orStop]

@[simp] theorem earnest_bind {x : Except Stop α} {f : α → Except Stop β} :
    Earnest (x >>= f) ↔ Earnest x ∧ ∀ a, x = .ok a → Earnest (f a) := by
  cases x with
  | error e => simp [Earnest, bind, Except.bind]
  | ok a => simp [bind, Except.bind]

@[simp] theorem earnest_map {x : Except Stop α} {f : α → β} : Earnest (x.map f) ↔ Earnest x := by
  cases x <;> simp [Earnest, Except.map]

@[simp] theorem earnest_text (j : Json) (k : String) : Earnest (j.text k) := by
  simp [Json.text]

@[simp] theorem earnest_raw (j : Json) (k : String) : Earnest (j.raw k) := by
  simp [Json.raw]

end Earnest

section Checks
variable {T : Type} (inet : Inet) (p : Points) (w : World T)

theorem earnest_ite {α : Type} {q : Prop} [Decidable q] {x y : Except Stop α} :
    Earnest (if q then x else y) ↔ (q → Earnest x) ∧ (¬ q → Earnest y) := by
  split <;> simp_all

theorem earnest_filterAdd (msg : Option Json) (f : ApiFilter) :
    Earnest (filterAdd inet p w msg f) := by
  simp only [filterAdd, filterChecks, filterAddress, readPrefix, filterPort, filterProto,
    earnest_bind, earnest_ite, earnest_orStop]
  simp

theorem earnest_dnsAdd (args : Option Json) : Earnest (dnsAdd p args) := by
  simp only [dnsAdd, earnest_bind, earnest_ite, earnest_orStop]
  simp

theorem earnest_memberChecks {j : Json} (hj : memberNeeds.all j.has = true) (conf : Member.AlMemberConf) :
    Earnest (memberChecks inet j conf) := by
  simp only [memberChecks, hj, memberAddress, memberPort, if_true, earnest_bind, earnest_ite]
  simp

theorem earnest_memberGroup_iff (j : Json) :
    Earnest (memberGroup p w j) ↔ j.has "group" = true ∨ j.has "group_name" = true := by
  simp only [memberGroup, earnest_ite, earnest_bind]
  cases j.has "group" <;> cases j.has "group_name" <;> simp

theorem earnest_memberAdd_iff (msg : Option Json) (conf : Member.AlMemberConf) :
    Earnest (memberAdd inet p w msg conf) ↔ ¬ Idle p (.member msg conf) := by
  cases msg with
  | none => simp [memberAdd, Idle]
  | some j =>
    simp only [memberAdd, Idle, earnest_bind, earnest_orStop, orStop_eq_ok, Option.some.injEq,
      forall_eq', earnest_ite, reduceCtorEq, false_imp_iff, true_and, not_earnest_idle, imp_false,
      not_not, earnest_memberGroup_iff]
    cases hj : memberNeeds.all j.has with
    | false => simp
    | true =>
      have hchecks := earnest_memberChecks inet hj conf
      cases j.has "group" <;> cases j.has "group_name" <;> simp [hchecks]

@[simp] theorem earnest_routeFamily (iptype : String) : Earnest (routeFamily iptype) := by
  simp only [routeFamily, earnest_ite]
  simp

theorem earnest_routeAddress_iff (j : Json) :
    Earnest (routeAddress j) ↔ ¬ (j.has "dstip" = false ∧ j.has "srcip" = false) := by
  simp only [routeAddress, earnest_ite]
  cases j.has "dstip" <;> cases j.has "srcip" <;> simp

theorem earnest_routerAdd_iff (msg : Option Json) :
    Earnest (routerAdd inet p w msg) ↔ ¬ Idle p (.route msg) := by
  cases msg with
  | none => simp [routerAdd, Idle]
  | some j =>
    simp only [routerAdd, Idle, earnest_bind, earnest_orStop, orStop_eq_ok, Option.some.injEq,
      forall_eq', earnest_ite, reduceCtorEq, false_imp_iff, true_and, not_earnest_idle, imp_false,
      not_not, raw_eq_ok, earnest_raw]
    cases hj : routeNeeds.all j.has with
    | false => simp
    | true =>
      simp only [earnest_routeAddress_iff, earnest_routeFamily, forall_const, true_and,
        and_true, Bool.true_eq_false, false_or, not_exists, not_and, not_or]
      refine forall₂_congr fun name _ => and_congr_right fun hnic => ?_
      obtain ⟨oif, hoif⟩ := Option.ne_none_iff_exists'.mp hnic
      simp [hoif]

theorem earnest_addition_iff (a : Add) : Earnest (addition inet p w a) ↔ ¬ Idle p a := by
  cases a with
  | filter msg f => exact iff_of_true (earnest_filterAdd inet p w msg f) fun h => h
  | member msg conf => exact earnest_memberAdd_iff inet p w msg conf
  | route msg => exact earnest_routerAdd_iff inet p w msg
  | domain args => exact iff_of_true (earnest_dnsAdd p args) fun h => h

theorem earnest_removal (d : Delete) : Earnest (removal inet p w d) := by
  cases d with
  | filter args f =>
    simp only [removal, filterDelete, filterToDelete, earnest_bind, earnest_ite, earnest_orStop]
    simp
  | member args =>
    simp only [removal, memberDelete, memberInfo, earnest_bind, earnest_ite, earnest_orStop]
    refine ⟨by simp, fun j _ => ⟨by simp, fun q _ => ⟨fun _ => ?_, by simp⟩⟩⟩
    split
    · simp
    · simp only [earnest_ite]
      simp
  | route args =>
    simp only [removal, routerDelete, searchRouteById, earnest_bind, earnest_ite, earnest_orStop]
    refine ⟨by simp, fun j _ => ⟨by simp, fun rid _ => ⟨⟨fun _ => ?_, by simp⟩, by simp⟩⟩⟩
    split
    · simp
    · simp only [earnest_ite]
      simp
  | domain args =>
    simp only [removal, dnsDelete, earnest_bind, earnest_ite, earnest_orStop]
    simp

end Checks

section Calls
variable {inet : Inet} {e : Supply} {p : Points} {w : World Tables}

theorem AddCall.atomic_iff (inet : Inet) (e : Supply) (db : List Row) {t : Tables}
    (hk : t.filters.Kept) (hroutes : ∃ live, Router.Tracks t.routes live) (call : AddCall) (id : ℕ)
    (undone : Prop) :
    (∀ rc t', (callees inet e).insert db t call = some (rc, t') →
      if rc = 0 then t'.view.Holds (call.object id) else t'.view = t.view ∧ undone) ↔
      call.Safe inet e db t id undone := by
  obtain ⟨live, htracks⟩ := hroutes
  cases call with
  | filterInsert f => exact filterInsert_atomic_iff hk f
  | memberAdd gid conf fids => exact addition_atomic_iff e t gid (UInt32.ofNat id) conf fids
  | routerInsert key rid hop oif => exact routerInsert_atomic_iff htracks key rid hop oif
  | dnsInsert d gid dnsid => exact dnsInsert_atomic_iff e t d gid dnsid

variable {r : Removal} {args : Option Json}

theorem memberDelete_objects {gid mid : String} {t : Tables}
    (hmarks : r.marks = fun row => row.key2 == mid)
    (hobjects : r.objects = (membersToDelete w gid mid).map fun i =>
      .member i (stn32 i) (stn32 gid) (filtersWithGroup w.rows gid)) :
    (r.Whole w ∧ ∀ o ∈ r.objects, t.view.Lacks o) ↔ r.Whole w ∧
      ∀ fid ∈ filtersWithGroup w.rows gid, ¬ t.view.hasMember (stn32 mid) (stn32 gid) fid := by
  refine and_congr_right fun hwhole => ?_
  have hone : ∀ i ∈ membersToDelete w gid mid, i = mid := by
    intro i hi
    obtain ⟨row, hrow, hbelongs⟩ := mem_ids.mp (List.mem_filter.mp hi).1
    obtain ⟨hmem, hlive⟩ := mem_liveRows.mp hrow
    have hmarked := hwhole (.member i (stn32 i) (stn32 gid) (filtersWithGroup w.rows gid))
      (by rw [hobjects]; exact List.mem_map.mpr ⟨i, hi, rfl⟩) row hmem hlive hbelongs
    rw [hmarks, beq_iff_eq] at hmarked
    exact (belongs_iff.mp hbelongs).2.symm.trans hmarked
  constructor
  · intro h
    obtain ⟨o, ho⟩ := List.exists_mem_of_ne_nil _ r.nonempty
    have hlacks := h o ho
    rw [hobjects] at ho
    obtain ⟨i, hi, rfl⟩ := List.mem_map.mp ho
    rw [← hone i hi]
    exact hlacks
  · intro h o ho
    rw [hobjects] at ho
    obtain ⟨i, hi, rfl⟩ := List.mem_map.mp ho
    rw [hone i hi]
    exact h

theorem filterDelete_ok {f : ApiFilter} (h : filterDelete inet p w args f = .ok r) :
    ∃ j kid, args = some j ∧ filterToDelete p w j = .ok kid ∧ (r.marks = fun row => row.key2 == kid) ∧
      r.objects = [.filter kid (stn32 kid)] ∧
      r.call = fun db => if p.fetch then
        match filterOfRows inet f kid (object db "filter" kid) with
        | none => .hang
        | some f => .filterDel f
      else .refuse := by
  simp only [filterDelete, bind_eq_ok, orStop_eq_ok] at h
  obtain ⟨j, rfl, kid, hkid, h⟩ := h
  cases h
  exact ⟨j, kid, rfl, hkid, rfl, rfl, rfl⟩

theorem filterDelete_atomic_iff (hk : w.tables.filters.Kept) {f : ApiFilter}
    (h : filterDelete inet p w args f = .ok r) (req : Delete) :
    Atomic (callees inet e) w (.delete req) (r.run (callees inet e) p w) ↔ r.Safe p w := by
  obtain ⟨j, kid, -, -, hmarks, hobjects, hcall⟩ := filterDelete_ok h
  have hwhole : r.Whole w := by
    intro o ho row _ _ howns
    rw [hobjects, List.mem_singleton] at ho
    subst ho
    rw [hmarks, beq_iff_eq]
    exact (belongs_iff.mp howns).2
  rw [Removal.run_atomic_iff, Removal.Safe, hobjects, hcall]
  simp only [List.mem_singleton, forall_eq, hwhole, true_and]
  refine forall_congr' fun _ => ?_
  cases p.fetch with
  | false =>
    refine forall_returned.trans ?_
    simp [DelCall.Safe]
  | true =>
    simp only [if_true]
    cases hrows : filterOfRows inet f kid (object (retire r.marks w.rows) "filter" kid) with
    | none => simp [Callees.delete, DelCall.Safe]
    | some g =>
      have hid : g.id = stn32 kid := by
        obtain ⟨g', -, rfl⟩ := Option.map_eq_some_iff.mp hrows
        rfl
      rw [← hid]
      exact filterDel_atomic_iff hk g

theorem memberDelete_ok (h : memberDelete p w args = .ok r) :
    ∃ j gid mid, args = some j ∧ memberInfo p w j = .ok (gid, mid) ∧
      membersToDelete w gid mid ≠ [] ∧ (r.marks = fun row => row.key2 == mid) ∧
      (r.call = fun _ => .memberDelete (stn32 gid) (stn32 mid) (filtersWithGroup w.rows gid)) ∧
      r.objects = (membersToDelete w gid mid).map fun i =>
        .member i (stn32 i) (stn32 gid) (filtersWithGroup w.rows gid) := by
  simp only [memberDelete, bind_eq_ok, orStop_eq_ok] at h
  obtain ⟨j, rfl, ⟨gid, mid⟩, hinfo, h⟩ := h
  dsimp only at h
  split at h
  · split at h
    · cases h
    · next i is hmembers =>
        split at h
        · cases h
          refine ⟨j, gid, mid, rfl, hinfo, ?_, rfl, rfl, by rw [hmembers]⟩
          rw [hmembers]
          exact List.cons_ne_nil _ _
        · cases h
  · cases h

theorem memberDelete_atomic_iff
    (hc : ∀ j gid mid, args = some j → memberInfo p w j = .ok (gid, mid) →
      w.tables.Counted (stn32 gid) (filtersWithGroup w.rows gid))
    (h : memberDelete p w args = .ok r) (req : Delete) :
    Atomic (callees inet e) w (.delete req) (r.run (callees inet e) p w) ↔ r.Safe p w := by
  obtain ⟨j, gid, mid, hargs, hinfo, -, hmarks, hcall, hobjects⟩ := memberDelete_ok h
  rw [Removal.run_atomic_iff, Removal.Safe, hcall]
  refine forall_congr' fun _ => Iff.trans ?_ (hc j gid mid hargs hinfo).deletion_atomic_iff
  refine forall₃_congr fun rc t' _ => ?_
  split
  · exact memberDelete_objects hmarks hobjects
  · rfl

theorem routerDelete_ok (h : routerDelete inet p w args = .ok r) :
    ∃ j rid d rtype, args = some j ∧ j.text "id" = .ok rid ∧
      searchRouteById p w rid = .ok (d, rtype) ∧ (r.marks = fun row => row.key3 == rid) ∧
      r.objects = [.route rid (storedKey inet d rtype)] ∧
      r.call = fun _ => if routeReads inet d then .routerDelete (storedKey inet d rtype) else .refuse := by
  simp only [routerDelete, bind_eq_ok, orStop_eq_ok] at h
  obtain ⟨j, rfl, rid, hrid, ⟨d, rtype⟩, hfound, h⟩ := h
  cases h
  exact ⟨j, rid, d, rtype, rfl, hrid, hfound, rfl, rfl, rfl⟩

theorem routerDelete_atomic_iff (hroutes : ∃ live, Router.Tracks w.tables.routes live)
    (h : routerDelete inet p w args = .ok r) (req : Delete) :
    Atomic (callees inet e) w (.delete req) (r.run (callees inet e) p w) ↔ r.Safe p w := by
  obtain ⟨live, htracks⟩ := hroutes
  obtain ⟨j, rid, d, rtype, -, -, -, hmarks, hobjects, hcall⟩ := routerDelete_ok h
  have hwhole : r.Whole w := by
    intro o ho row _ _ howns
    rw [hobjects, List.mem_singleton] at ho
    subst ho
    simp only [Object.owns, Bool.and_eq_true] at howns
    rw [hmarks]
    exact howns.2
  rw [Removal.run_atomic_iff, Removal.Safe, hobjects, hcall]
  simp only [List.mem_singleton, forall_eq, hwhole, true_and]
  refine forall_congr' fun _ => ?_
  cases routeReads inet d with
  | false =>
    refine forall_returned.trans ?_
    simp [DelCall.Safe]
  | true =>
    refine iff_of_true (fun rc t' hrun => ?_) trivial
    obtain ⟨⟨rc', t''⟩, hremove, heq⟩ := Option.map_eq_some_iff.mp hrun
    cases heq
    exact routerRemove_lacks htracks hremove

end Calls

def supply : Supply :=
  ⟨true, none, none, none, none, fun _ => none, true, true, blankConf, Router.onePort⟩

def allWell : Points :=
  ⟨some 6, true, true, true, true, true, true, fun _ => some 7⟩

def directRoute : World Tables where
  rows := routeRows 5 "static" [("iptype", "ipv4"), ("dstip", "10.0.0.1"), ("rtype", "static"),
    ("netmask", "255.255.255.0"), ("nexthop", "10.0.0.1"), ("name", "eth0")]
  tables := { Tables.empty with
    routes := Router.run Router.onePort
      [.insert .inet 5 0x0a000001 ⟨24, by decide⟩ (some 0x0a000001) 2 7] }

def policyRoute : World Tables where
  rows := routeRows 5 "policy" [("iptype", "ipv4"), ("srcip", "10.0.0.1"), ("rtype", "policy"),
    ("netmask", "255.255.255.0"), ("nexthop", "10.0.0.1"), ("name", "eth0")]
  tables := ⟨Filter.alFilterInit, fun _ => none,
    (Router.alRouterInsert Router.onePort Router.alRouterInit .inet 5 0x0a000001 ⟨24, by decide⟩
      (some 0x0a000001) 0 7).2, fun _ => none⟩

end Aware.Rest
