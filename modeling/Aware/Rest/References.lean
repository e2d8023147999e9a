import Aware.Lib.Runs
import Aware.Rest.Atomic
import Aware.Rest.Groups

/-!
# Which groups the rows name

Filters, members and domains keep the id of their group in a row. The handlers check it each in
its own way: `al_member_add` looks for a live group, `al_filter_add` leaves it to `al_group_load`,
and `del_group_byid` counts the rows of filters, live or not, and no others.
-/
namespace Aware.Rest
open Aware.Runs

def references : List (String × String) :=
  [("filter", "group"), ("member", "group"), ("dns", "gid")]

def Row.reference (r : Row) : Option String :=
  if (r.key1, r.key3) ∈ references then some r.value else none

section Rows
variable (db : List Row) (g : String)

structure LiveGroup : Prop where
  stored : ∃ r ∈ db, r.belongs "group" g = true
  live : ∀ r ∈ db, r.belongs "group" g = true → r.isLive = true

def Referenced : Prop :=
  ∃ r ∈ liveRows db, r.reference = some g

/-- Every live object of the kinds above names a group, and only live groups are named. -/
structure Intact : Prop where
  named : ∀ r ∈ liveRows db, r.key1 ∈ references.map Prod.fst →
    ∃ r' ∈ liveRows db, r'.key1 = r.key1 ∧ r'.key2 = r.key2 ∧ r'.reference.isSome = true
  live : ∀ g, Referenced db g → LiveGroup db g

def Spare (kid : String) : Prop :=
  ∀ r ∈ liveRows db, r.key2 = kid → ∀ g ∈ r.reference,
    ∃ r' ∈ liveRows db, r'.key2 ≠ kid ∧ r'.reference = some g

inductive Asks (j : Json) : Prop where
  | byId (hid : j.get "id" = some g)
  | byName (r : Row) (hr : r ∈ db) (hgroup : r.belongs "group" g = true) (hkey : r.key3 = "name")
      (hid : j.has "id" = false) (hname : j.get "name" = some r.value)

end Rows

def faithful (id : Option ℕ) : Points :=
  ⟨id, true, true, true, true, true, true, fun _ => none⟩

section Faithful
variable (id : Option ℕ)

@[simp] theorem faithful_search : (faithful id).search = true := rfl
@[simp] theorem faithful_fetch : (faithful id).fetch = true := rfl
@[simp] theorem faithful_rollback : (faithful id).rollback = true := rfl

end Faithful

def Deletes (db : List Row) (j : Json) (g : String) : Prop :=
  ∃ db', groupDelete (faithful none) db (some j) = .ok db' ∧ ¬ LiveGroup db' g

structure Consistent (db : List Row) : Prop where
  intact : Intact db
  deletes : ∀ g j, LiveGroup db g → Asks db g j → (Deletes db j g ↔ ¬ Referenced db g)

section Requests

inductive Order where
  | groupAdd (msg : Option Json)
  | groupDelete (args : Option Json)
  | filterAdd (msg : Option Json) (f : ApiFilter)
  | filterDelete (args : Option Json) (f : ApiFilter)
  | memberAdd (msg : Option Json) (conf : Member.AlMemberConf)
  | memberDelete (args : Option Json)
  | domainAdd (args : Option Json)
  | domainDelete (args : Option Json)

def rowsReply {T : Type} (w : World T) : Except Stop (List Row) → Reply T
  | .error e => e.reply w
  | .ok rows => .returned 0 none [] { w with rows }

def Reply.world {T : Type} : Reply T → Option (World T)
  | .returned _ _ _ w => some w
  | .thrown w => some w
  | .fault => none

def Order.handle (inet : Inet) (e : Supply) (p : Points) (w : World Tables) : Order → Reply Tables
  | .groupAdd msg => rowsReply w (Rest.groupAdd p w.rows msg)
  | .groupDelete args => rowsReply w (Rest.groupDelete p w.rows args)
  | .filterAdd msg f => Rest.handle (callees inet e) inet p w (.add (.filter msg f))
  | .filterDelete args f => Rest.handle (callees inet e) inet p w (.delete (.filter args f))
  | .memberAdd msg conf => Rest.handle (callees inet e) inet p w (.add (.member msg conf))
  | .memberDelete args => Rest.handle (callees inet e) inet p w (.delete (.member args))
  | .domainAdd args => Rest.handle (callees inet e) inet p w (.add (.domain args))
  | .domainDelete args => Rest.handle (callees inet e) inet p w (.delete (.domain args))

/-- A request, with what its calls get from outside and how many ids it leaves out. -/
structure Asked where
  supply : Supply
  gap : ℕ
  order : Order

structure Store where
  last : ℕ
  world : World Tables

def Asked.id (s : Store) (i : Asked) : ℕ :=
  s.last + 1 + i.gap

def orderStep (inet : Inet) (s : Store) (i : Asked) : Option Store :=
  (i.order.handle inet i.supply (faithful (some (i.id s))) s.world).world.map fun w => ⟨i.id s, w⟩

/-- What a request has to meet: an addition can be undone, and a deletion leaves each group some
object that names it. -/
def Order.Prudent (id : ℕ) (w : World Tables) : Order → Prop
  | .groupAdd _ => True
  | .groupDelete args => ∀ j ∈ args, ∀ kid ∈ (groupToDelete (faithful (some id)) w.rows j).toOption,
      Spare w.rows kid
  | .filterAdd msg _ => id < 2 ^ 31 ∧ ∀ j ∈ msg, ∀ g ∈ j.get "group",
      LiveGroup w.rows (nts (stn32 g).toNat) → LiveGroup w.rows g
  | .filterDelete args _ => ∀ j ∈ args, ∀ kid ∈ (filterToDelete (faithful (some id)) w j).toOption,
      Spare w.rows kid ∧ (LiveGroup w.rows kid → ¬ Referenced w.rows kid)
  | .memberAdd msg _ => id < 2 ^ 31 ∧ ∀ j ∈ msg, ∀ g ∈ j.get "group", filtersNaming w.rows g ≠ []
  | .memberDelete args => ∀ j ∈ args, ∀ m ∈ (memberInfo (faithful (some id)) w j).toOption,
      membersToDelete w m.1 m.2 ≠ [] → Spare w.rows m.2
  | .domainAdd _ => id < 2 ^ 31
  | .domainDelete _ => True

def Prudent (s : Store) (i : Asked) : Prop :=
  i.order.Prudent (i.id s) s.world

instance (db : List Row) (g : String) : Decidable (LiveGroup db g) :=
  decidable_of_iff ((∃ r ∈ db, r.belongs "group" g = true) ∧
      ∀ r ∈ db, r.belongs "group" g = true → r.isLive = true)
    ⟨fun h => ⟨h.1, h.2⟩, fun h => ⟨h.stored, h.live⟩⟩

instance (db : List Row) (g : String) : Decidable (Referenced db g) :=
  inferInstanceAs (Decidable (∃ r ∈ liveRows db, r.reference = some g))

instance (db : List Row) (kid : String) : Decidable (Spare db kid) :=
  inferInstanceAs (Decidable (∀ r ∈ liveRows db, r.key2 = kid → ∀ g ∈ r.reference,
    ∃ r' ∈ liveRows db, r'.key2 ≠ kid ∧ r'.reference = some g))

instance Order.Prudent.decidable (id : ℕ) (w : World Tables) : (o : Order) → Decidable (o.Prudent id w)
  | .groupAdd _ => inferInstanceAs (Decidable True)
  | .groupDelete _ => by unfold Order.Prudent; infer_instance
  | .filterAdd _ _ => by unfold Order.Prudent; infer_instance
  | .filterDelete _ _ => by unfold Order.Prudent; infer_instance
  | .memberAdd _ _ => by unfold Order.Prudent; infer_instance
  | .memberDelete _ => by unfold Order.Prudent; infer_instance
  | .domainAdd id => by unfold Order.Prudent; infer_instance
  | .domainDelete _ => inferInstanceAs (Decidable True)

instance (s : Store) (i : Asked) : Decidable (Prudent s i) :=
  inferInstanceAs (Decidable (i.order.Prudent _ _))

end Requests

section Facts
variable {db new : List Row} {g kid : String} {r : Row}

theorem filtersNaming_ne_nil :
    filtersNaming db g ≠ [] ↔
      ∃ r ∈ db, r.key1 = "filter" ∧ r.key3 = "group" ∧ r.value = g := by
  rw [filtersNaming, ne_eq, List.filter_eq_nil_iff]
  simp [and_assoc]

theorem reference_of_group (h : r.key1 = "group") : r.reference = none := by
  have hnot : ("group", r.key3) ∉ references := by
    simp [references]
  rw [Row.reference, h, if_neg hnot]

theorem reference_of_filter (hkind : r.key1 = "filter") (hkey : r.key3 = "group") :
    r.reference = some r.value := by
  have hmem : ("filter", "group") ∈ references := List.mem_cons_self
  rw [Row.reference, hkind, hkey, if_pos hmem]

theorem referenced_append :
    Referenced (db ++ new) g ↔ Referenced db g ∨ Referenced new g := by
  simp only [Referenced, liveRows, List.filter_append, List.mem_append, or_and_right, exists_or]

theorem filtersNaming_append : filtersNaming (db ++ new) g = filtersNaming db g ++ filtersNaming new g :=
  List.filter_append ..

theorem groupsNamed_append (name : String) :
    groupsNamed (db ++ new) name = groupsNamed db name ++ groupsNamed new name := by
  rw [groupsNamed, liveRows, List.filter_append, List.filter_append]
  rfl

theorem liveGroup_of_live (hr : r ∈ liveRows db) (hgroup : r.belongs "group" g = true)
    (hwhole : ∀ r ∈ db, ∀ r' ∈ db, r.key2 = r'.key2 → r.isLive = r'.isLive) : LiveGroup db g := by
  obtain ⟨hmem, hlive⟩ := mem_liveRows.mp hr
  refine ⟨⟨r, hmem, hgroup⟩, ?_⟩
  intro r' hr' hgroup'
  have hsame : r.key2 = r'.key2 := (belongs_iff.mp hgroup).2.trans (belongs_iff.mp hgroup').2.symm
  rw [← hwhole r hmem r' hr' hsame, hlive]

theorem liveGroup_append (hnew : ∀ r ∈ new, r.belongs "group" g = true → r.isLive = true)
    (h : LiveGroup db g) : LiveGroup (db ++ new) g := by
  obtain ⟨r, hr, hgroup⟩ := h.stored
  refine ⟨⟨r, List.mem_append_left _ hr, hgroup⟩, ?_⟩
  intro r' hr' hgroup'
  rcases List.mem_append.mp hr' with hold | hadded
  · exact h.live r' hold hgroup'
  · exact hnew r' hadded hgroup'

theorem LiveGroup.of_append (hnew : ∀ r ∈ new, r.belongs "group" g = false)
    (h : LiveGroup (db ++ new) g) : LiveGroup db g := by
  obtain ⟨r, hr, hgroup⟩ := h.stored
  rcases List.mem_append.mp hr with hold | hadded
  · exact ⟨⟨r, hold, hgroup⟩, fun r' hr' => h.live r' (List.mem_append_left _ hr')⟩
  · rw [hnew r hadded] at hgroup
    cases hgroup

theorem mem_retire {m : Row → Bool} :
    r ∈ retire m db ↔ ∃ r' ∈ db, r = if m r' then { r' with isLive := false } else r' := by
  simp only [retire, List.mem_map, eq_comm]

theorem liveGroup_retire :
    LiveGroup (retire (fun r => r.key2 == kid) db) g ↔ LiveGroup db g ∧ g ≠ kid := by
  constructor
  · intro h
    have hmarked : ∀ r ∈ db, r.belongs "group" g = true → r.isLive = true ∧ g ≠ kid := by
      intro r hr hgroup
      have hkey : r.key2 = g := (belongs_iff.mp hgroup).2
      have hlive := h.live _ (mem_retire.mpr ⟨r, hr, rfl⟩)
      by_cases hkid : g = kid
      · rw [if_pos (beq_iff_eq.mpr (hkey.trans hkid))] at hlive
        exact absurd (hlive hgroup) Bool.false_ne_true
      · rw [if_neg (mt beq_iff_eq.mp (hkey.trans_ne hkid))] at hlive
        exact ⟨hlive hgroup, hkid⟩
    obtain ⟨r, hr, hgroup⟩ := h.stored
    obtain ⟨r', hr', rfl⟩ := mem_retire.mp hr
    have hgroup' : r'.belongs "group" g = true := by
      split at hgroup <;> exact hgroup
    exact ⟨⟨⟨r', hr', hgroup'⟩, fun r hr hg => (hmarked r hr hg).1⟩, (hmarked r' hr' hgroup').2⟩
  · rintro ⟨h, hne⟩
    have hkept : ∀ r ∈ db, r.belongs "group" g = true →
        (if (r.key2 == kid) = true then { r with isLive := false } else r) = r := by
      intro r hr hgroup
      exact if_neg (mt beq_iff_eq.mp ((belongs_iff.mp hgroup).2.trans_ne hne))
    obtain ⟨r, hr, hgroup⟩ := h.stored
    refine ⟨⟨r, mem_retire.mpr ⟨r, hr, (hkept r hr hgroup).symm⟩, hgroup⟩, ?_⟩
    intro r' hr' hgroup'
    obtain ⟨r₀, hr₀, rfl⟩ := mem_retire.mp hr'
    have hgroup₀ : r₀.belongs "group" g = true := by
      split at hgroup' <;> exact hgroup'
    rw [hkept r₀ hr₀ hgroup₀]
    exact h.live r₀ hr₀ hgroup₀

end Facts

/-- What every request keeps, when ids up to `last` have been handed out. -/
structure Kempt (last : ℕ) (db : List Row) : Prop where
  ids : ∀ r ∈ db, ∃ k ≤ last, r.key2 = nts k
  kinds : ∀ r ∈ db, ∀ r' ∈ db, r.key2 = r'.key2 → r.key1 = r'.key1
  whole : ∀ r ∈ db, ∀ r' ∈ db, r.key2 = r'.key2 → r.isLive = r'.isLive
  values : ∀ g, filtersNaming db g ≠ [] → ∃ k ≤ last, g = nts k
  names : ∀ name, (groupsNamed db name).length ≤ 1
  intact : Intact db
  balanced : ∀ g, LiveGroup db g → (filtersNaming db g ≠ [] ↔ Referenced db g)

theorem kempt_nil : Kempt 0 [] where
  ids _ h := by cases h
  kinds _ h := by cases h
  whole _ h := by cases h
  values _ h := absurd rfl h
  names _ := Nat.zero_le 1
  intact := by
    refine ⟨fun _ h => (List.not_mem_nil h).elim, ?_⟩
    rintro g ⟨r, hr, -⟩
    cases hr
  balanced _ h := by
    obtain ⟨_, hr, _⟩ := h.stored
    cases hr

structure OneObject (id : ℕ) (key1 : String) (new : List Row) : Prop where
  kind : ∀ r ∈ new, r.key1 = key1
  key : ∀ r ∈ new, r.key2 = nts id
  live : ∀ r ∈ new, r.isLive = true

section Keep
variable {db : List Row} {last id : ℕ} (h : Kempt last db)
include h

theorem Kempt.mono (hid : last ≤ id) : Kempt id db where
  ids r hr := by
    obtain ⟨k, hk, hkey⟩ := h.ids r hr
    exact ⟨k, hk.trans hid, hkey⟩
  kinds := h.kinds
  whole := h.whole
  values g hg := by
    obtain ⟨k, hk, hkey⟩ := h.values g hg
    exact ⟨k, hk.trans hid, hkey⟩
  names := h.names
  intact := h.intact
  balanced := h.balanced

variable {g key1 : String} {new : List Row}

theorem Kempt.group_id (hg : LiveGroup db g) : ∃ k ≤ last, g = nts k := by
  obtain ⟨r, hr, hgroup⟩ := hg.stored
  obtain ⟨k, hk, hkey⟩ := h.ids r hr
  exact ⟨k, hk, (belongs_iff.mp hgroup).2.symm.trans hkey⟩

theorem Kempt.fresh (hid : last < id) {r : Row} (hr : r ∈ db) : r.key2 ≠ nts id := by
  intro hkey
  obtain ⟨k, hk, hk'⟩ := h.ids r hr
  have := Numerals.repr_injective (hk'.symm.trans hkey)
  omega

theorem Kempt.not_liveGroup (hid : last < id) : ¬ LiveGroup db (nts id) := by
  intro hg
  obtain ⟨r, hr, hgroup⟩ := hg.stored
  exact h.fresh hid hr (belongs_iff.mp hgroup).2

theorem Kempt.same_side (hid : last < id)
    (hnew : OneObject id key1 new) {r r' : Row} (hr : r ∈ db ++ new) (hr' : r' ∈ db ++ new)
    (hkey : r.key2 = r'.key2) : r ∈ db ∧ r' ∈ db ∨ r ∈ new ∧ r' ∈ new := by
  rcases List.mem_append.mp hr with hr | hr <;> rcases List.mem_append.mp hr' with hr' | hr'
  · exact .inl ⟨hr, hr'⟩
  · exact absurd (hkey.trans (hnew.key r' hr')) (h.fresh hid hr)
  · exact absurd (hkey.symm.trans (hnew.key r hr)) (h.fresh hid hr')
  · exact .inr ⟨hr, hr'⟩

theorem Kempt.append (hid : last < id) (hnew : OneObject id key1 new)
    (hvalues : ∀ g, filtersNaming new g ≠ [] → ∃ k ≤ id, g = nts k)
    (hnames : ∀ name, (groupsNamed (db ++ new) name).length ≤ 1)
    (hnamed : key1 ∈ references.map Prod.fst → ∃ r ∈ new, r.reference.isSome = true)
    (hlive : ∀ g, Referenced new g → LiveGroup db g) (hbalanced : ∀ g, LiveGroup (db ++ new) g →
      (filtersNaming (db ++ new) g ≠ [] ↔ Referenced (db ++ new) g)) : Kempt id (db ++ new) where
  ids r hr := by
    rcases List.mem_append.mp hr with hr | hr
    · exact (h.mono hid.le).ids r hr
    · exact ⟨id, le_rfl, hnew.key r hr⟩
  kinds r hr r' hr' hkey := by
    rcases h.same_side hid hnew hr hr' hkey with ⟨hr, hr'⟩ | ⟨hr, hr'⟩
    · exact h.kinds r hr r' hr' hkey
    · rw [hnew.kind r hr, hnew.kind r' hr']
  whole r hr r' hr' hkey := by
    rcases h.same_side hid hnew hr hr' hkey with ⟨hr, hr'⟩ | ⟨hr, hr'⟩
    · exact h.whole r hr r' hr' hkey
    · rw [hnew.live r hr, hnew.live r' hr']
  values g hg := by
    rw [filtersNaming_append, ne_eq, List.append_eq_nil_iff, not_and_or] at hg
    rcases hg with hg | hg
    · exact (h.mono hid.le).values g hg
    · exact hvalues g hg
  names := hnames
  intact := by
    have hmem : ∀ r, r ∈ liveRows (db ++ new) ↔ r ∈ liveRows db ∨ r ∈ liveRows new := by
      intro r
      rw [liveRows, List.filter_append, List.mem_append]
      rfl
    refine ⟨?_, ?_⟩
    · intro r hr hkind
      rcases (hmem r).mp hr with hr | hr
      · obtain ⟨r', hr', hsame⟩ := h.intact.named r hr hkind
        exact ⟨r', (hmem r').mpr (.inl hr'), hsame⟩
      · obtain ⟨hr, -⟩ := mem_liveRows.mp hr
        rw [hnew.kind r hr] at hkind
        obtain ⟨r', hr', href⟩ := hnamed hkind
        have hlive' : r' ∈ liveRows new := mem_liveRows.mpr ⟨hr', hnew.live r' hr'⟩
        exact ⟨r', (hmem r').mpr (.inr hlive'), by rw [hnew.kind r hr, hnew.kind r' hr'],
          by rw [hnew.key r hr, hnew.key r' hr'], href⟩
    · intro g hg
      refine liveGroup_append (fun r hr _ => hnew.live r hr) ?_
      rcases referenced_append.mp hg with hg | hg
      · exact h.intact.live g hg
      · exact hlive g hg
  balanced := hbalanced

theorem Kempt.insertGroup (hid : last < id) {name : String} (hname : groupsNamed db name = []) :
    Kempt id (db ++ insertGroup id name) := by
  have hnew : OneObject id "group" (Rest.insertGroup id name) := by
    constructor <;> simp [Rest.insertGroup, fieldRow]
  have hnaming : ∀ g, filtersNaming (Rest.insertGroup id name) g = [] := fun g => rfl
  have hreference : ∀ g, ¬ Referenced (Rest.insertGroup id name) g := by
    rintro g ⟨r, hr, href⟩
    rw [reference_of_group (hnew.kind r (mem_liveRows.mp hr).1)] at href
    cases href
  apply h.append hid hnew
  · intro g hg
    exact absurd (hnaming g) hg
  · intro name'
    rw [groupsNamed_append, List.length_append]
    by_cases heq : name = name'
    · subst heq
      rw [hname]
      simp [groupsNamed, liveRows, Rest.insertGroup, fieldRow]
    · simpa [groupsNamed, liveRows, Rest.insertGroup, fieldRow, heq] using h.names name'
  · intro hkind
    simp [references] at hkind
  · intro g hg
    exact absurd hg (hreference g)
  · intro g hg
    rw [filtersNaming_append, hnaming, List.append_nil, referenced_append,
      or_iff_left (hreference g)]
    by_cases heq : g = nts id
    · -- nothing names an id that has not been handed out
      subst heq
      refine iff_of_false ?_ fun href => h.not_liveGroup hid (h.intact.live _ href)
      intro hnamed
      obtain ⟨k, hk, hkey⟩ := h.values _ hnamed
      have := Numerals.repr_injective hkey
      omega
    · refine h.balanced g (hg.of_append ?_)
      intro r hr
      rw [Row.belongs, hnew.key r hr, beq_eq_false_iff_ne.mpr (Ne.symm heq), Bool.and_false]

theorem Kempt.refer (hid : last < id)
    (hnew : OneObject id key1 new) (hkind : key1 ≠ "group") (hg : LiveGroup db g)
    (hnamed : Referenced new g) (honly : ∀ g', Referenced new g' → g' = g)
    (hfilter : key1 = "filter" ∧ filtersNaming new g ≠ [] ∨ filtersNaming db g ≠ []) :
    Kempt id (db ++ new) := by
  have hother : ∀ g', ∀ r ∈ new, r.belongs "group" g' = false := by
    intro g' r hr
    rw [Row.belongs, hnew.kind r hr, beq_eq_false_iff_ne.mpr hkind, Bool.false_and]
  have hnaming : ∀ g', filtersNaming new g' ≠ [] → g' = g := by
    intro g' hg'
    obtain ⟨r, hr, hkind, hkey, rfl⟩ := filtersNaming_ne_nil.mp hg'
    exact honly _ ⟨r, mem_liveRows.mpr ⟨hr, hnew.live r hr⟩, reference_of_filter hkind hkey⟩
  apply h.append hid hnew
  · intro g' hg'
    rw [hnaming g' hg']
    exact (h.mono hid.le).group_id hg
  · intro name
    have hnone : groupsNamed new name = [] := by
      refine List.filter_eq_nil_iff.mpr fun r hr => ?_
      simp [hnew.kind r (mem_liveRows.mp hr).1, hkind]
    rw [groupsNamed_append, hnone, List.append_nil]
    exact h.names name
  · intro _
    obtain ⟨r, hr, href⟩ := hnamed
    exact ⟨r, (mem_liveRows.mp hr).1, by rw [href]; rfl⟩
  · intro g' hg'
    rw [honly g' hg']
    exact hg
  · intro g' hlive
    have hold := h.balanced g' (hlive.of_append (hother g'))
    rw [filtersNaming_append, referenced_append, ← hold, ne_eq, List.append_eq_nil_iff, not_and_or]
    refine or_congr_right' fun hnone => ⟨fun hnew' => ?_, fun hnew' => ?_⟩
    · rw [hnaming g' hnew']
      exact hnamed
    · rw [honly g' hnew'] at hnone ⊢
      exact (hfilter.resolve_right hnone).2

theorem Kempt.retire {kid : String} (hspare : Spare db kid)
    (hunused : LiveGroup db kid → ¬ Referenced db kid) :
    Kempt last (retire (fun r => r.key2 == kid) db) := by
  have hmem : ∀ r, r ∈ liveRows (Rest.retire (fun r => r.key2 == kid) db) ↔
      r ∈ liveRows db ∧ r.key2 ≠ kid := by
    intro r
    rw [mem_liveRows_retire, mem_liveRows, and_assoc, beq_eq_false_iff_ne]
  have hreferenced : ∀ g, Referenced (Rest.retire (fun r => r.key2 == kid) db) g ↔
      Referenced db g := by
    intro g
    constructor
    · rintro ⟨r, hr, href⟩
      exact ⟨r, ((hmem r).mp hr).1, href⟩
    · rintro ⟨r, hr, href⟩
      by_cases hkey : r.key2 = kid
      · obtain ⟨r', hr', hne, href'⟩ := hspare r hr hkey g href
        exact ⟨r', (hmem r').mpr ⟨hr', hne⟩, href'⟩
      · exact ⟨r, (hmem r).mpr ⟨hr, hkey⟩, href⟩
  have hnaming : ∀ g, filtersNaming (Rest.retire (fun r => r.key2 == kid) db) g ≠ [] ↔
      filtersNaming db g ≠ [] := by
    intro g
    rw [filtersNaming_ne_nil, filtersNaming_ne_nil]
    constructor
    · rintro ⟨r, hr, hfields⟩
      obtain ⟨r', hr', rfl⟩ := mem_retire.mp hr
      refine ⟨r', hr', ?_⟩
      split at hfields <;> exact hfields
    · rintro ⟨r, hr, hfields⟩
      refine ⟨_, mem_retire.mpr ⟨r, hr, rfl⟩, ?_⟩
      split <;> exact hfields
  have hpair : ∀ r ∈ Rest.retire (fun r => r.key2 == kid) db, ∃ r' ∈ db, r.key1 = r'.key1 ∧
      r.key2 = r'.key2 ∧ r.isLive = (r'.isLive && !(r'.key2 == kid)) := by
    intro r hr
    obtain ⟨r', hr', rfl⟩ := mem_retire.mp hr
    refine ⟨r', hr', ?_⟩
    split
    · next hkey => simp [hkey]
    · next hkey => simp [hkey]
  constructor
  · intro r hr
    obtain ⟨r', hr', -, hkey, -⟩ := hpair r hr
    rw [hkey]
    exact h.ids r' hr'
  · intro r hr r' hr' hkey
    obtain ⟨q, hq, hkind, hkeyq, -⟩ := hpair r hr
    obtain ⟨q', hq', hkind', hkeyq', -⟩ := hpair r' hr'
    rw [hkind, hkind']
    exact h.kinds q hq q' hq' (hkeyq.symm.trans (hkey.trans hkeyq'))
  · intro r hr r' hr' hkey
    obtain ⟨q, hq, -, hkeyq, hlive⟩ := hpair r hr
    obtain ⟨q', hq', -, hkeyq', hlive'⟩ := hpair r' hr'
    have hsame : q.key2 = q'.key2 := hkeyq.symm.trans (hkey.trans hkeyq')
    rw [hlive, hlive', h.whole q hq q' hq' hsame, hsame]
  · intro g hg
    exact h.values g ((hnaming g).mp hg)
  · intro name
    refine le_trans (List.Sublist.length_le (List.Sublist.filter _ ?_)) (h.names name)
    rw [liveRows, Rest.retire, Undo.filter_marked fun _ => rfl]
    exact List.filter_sublist.filter _
  · refine ⟨?_, ?_⟩
    · intro r hr hkind
      obtain ⟨hr, hkey⟩ := (hmem r).mp hr
      obtain ⟨r', hr', hsame, hkey', href⟩ := h.intact.named r hr hkind
      exact ⟨r', (hmem r').mpr ⟨hr', hkey'.trans_ne hkey⟩, hsame, hkey', href⟩
    · intro g hg
      have href := (hreferenced g).mp hg
      have hlive := h.intact.live g href
      refine liveGroup_retire.mpr ⟨hlive, ?_⟩
      rintro rfl
      exact hunused hlive href
  · intro g hg
    rw [hnaming, hreferenced]
    exact h.balanced g (liveGroup_retire.mp hg).1

theorem Kempt.rollback_append (hid : last < id) (hint : id < 2 ^ 31)
    (hkey : ∀ r ∈ new, r.key2 = nts id) : rollback (faithful (some id)) id (db ++ new) = db := by
  have hfmt : Numerals.formatInt32 id = nts id := (Numerals.formatInt32_eq_repr_iff id).mpr hint
  have hold : db.filter (fun r => !(r.key2 == nts id)) = db := by
    refine List.filter_eq_self.mpr fun r hr => ?_
    simpa using h.fresh hid hr
  have hgone : new.filter (fun r => !(r.key2 == nts id)) = [] := by
    refine List.filter_eq_nil_iff.mpr fun r hr => ?_
    simp [hkey r hr]
  rw [rollback, if_pos (faithful_rollback _), hfmt, List.filter_append, hold, hgone, List.append_nil]

theorem Kempt.groupToDelete {j : Json} (hg : LiveGroup db g) (hask : Asks db g j) :
    groupToDelete (faithful none) db j = .ok g := by
  cases hask with
  | byId hid => rw [Rest.groupToDelete, if_pos (Json.has_of_get hid), Json.raw, orStop_eq_ok, hid]
  | byName r hr hgroup hkey hid hname =>
    obtain ⟨hkind, hkey2⟩ := belongs_iff.mp hgroup
    have hmem : r ∈ groupsNamed db r.value := by
      simp [groupsNamed, mem_liveRows, hr, hg.live r hr hgroup, hkind, hkey]
    have hone : groupsNamed db r.value = [r] := by
      obtain ⟨r', heq⟩ := List.length_eq_one_iff.mp
        (le_antisymm (h.names r.value) (List.length_pos_of_mem hmem))
      rw [heq] at hmem ⊢
      rw [List.mem_singleton.mp hmem]
    have hne : g ≠ "" := by
      obtain ⟨k, -, rfl⟩ := h.group_id hg
      obtain ⟨c, ds, hrepr, -⟩ := Numerals.exists_digit k
      intro hempty
      rw [nts] at hempty
      rw [hempty] at hrepr
      cases hrepr
    have hsearch : searchGroupByName (faithful none) db r.value = g := by
      rw [searchGroupByName, if_pos (faithful_search _), hone]
      exact hkey2
    simp [Rest.groupToDelete, hid, Json.has_of_get hname, Json.raw, hname, orStop, hsearch, hne,
      bind, Except.bind, pure, Except.pure]

theorem Kempt.consistent : Consistent db where
  intact := h.intact
  deletes g j hg hask := by
    have hdelete : Rest.groupDelete (faithful none) db (some j) =
        if (filtersNaming db g).length ≠ 0 then .error (fail .resourceBusy)
        else .ok (Rest.retire (fun r => r.key2 == g) db) := by
      change (Rest.groupToDelete (faithful none) db j >>= delGroupById (faithful none) db) = _
      rw [h.groupToDelete hg hask]
      rfl
    rw [← h.balanced g hg, Classical.not_not, Deletes, hdelete]
    constructor
    · rintro ⟨db', hok, -⟩
      by_contra hsome
      rw [if_pos (mt List.length_eq_zero_iff.mp hsome)] at hok
      cases hok
    · intro hnone
      rw [hnone]
      refine ⟨_, rfl, fun hlive => ?_⟩
      exact (liveGroup_retire.mp hlive).2 rfl

end Keep

section Effects
variable {T V : Type} {c : Callees T V} {w w' : World T} {p : Points}

theorem Addition.run_rows {a : Addition} (h : (a.run c p w).world = some w') :
    (∃ new, (new = [] ∨ a.rows = some new) ∧ w'.rows = rollback p a.id (w.rows ++ new)) ∨
      ∃ new t, a.rows = some new ∧ a.ready = true ∧
        c.insert (w.rows ++ new) w.tables a.call = some (0, t) ∧ w'.rows = w.rows ++ new := by
  have hthrows : ∀ v : World T, (a.throws v).world = some v := by
    intro v
    rw [Addition.throws]
    split <;> rfl
  rw [Addition.run] at h
  split at h
  · rw [hthrows] at h
    cases h
    exact .inl ⟨[], .inl rfl, by rw [List.append_nil]⟩
  · next new hnew =>
      split at h
      · dsimp only at h
        split at h
        · next hready =>
            split at h
            · cases h
            · next rc t hcall =>
                split at h
                · next hrc =>
                    subst hrc
                    cases h
                    exact .inr ⟨new, t, hnew, hready, hcall, rfl⟩
                · cases h
                  exact .inl ⟨new, .inr hnew, rfl⟩
        · rw [hthrows] at h
          cases h
          exact .inl ⟨new, .inr hnew, rfl⟩
      · cases h
        exact .inl ⟨[], .inl rfl, by rw [List.append_nil]⟩

theorem Removal.run_rows {r : Removal} (h : (r.run c p w).world = some w') :
    w'.rows = retire r.marks w.rows ∨ w'.rows = w.rows := by
  rw [Removal.run] at h
  split at h
  · dsimp only at h
    split at h
    · cases h
    · split at h <;> cases h <;> exact .inl rfl
  · cases h
    exact .inr rfl

theorem Stop.reply_world {e : Stop} (h : (e.reply w).world = some w') : w' = w := by
  cases e <;> cases h <;> rfl

end Effects

section Orders
variable {inet : Inet} {e : Supply} {db : List Row} {t t' : Tables}

theorem mem_of_find {rows : List Row} {k v : String}
    (h : Fields.find (rows.map fun r => (r.key3, r.value)) k = some v) : ∃ r, r ∈ rows := by
  cases rows with
  | nil => cases h
  | cons r rows => exact ⟨r, List.mem_cons_self⟩

theorem live_of_load {g g' : Member.Groups} {fid gid : UInt32}
    (h : alGroupLoad inet e db g fid gid = some (0, g')) :
    ∃ r ∈ liveRows db, r.belongs "group" (nts gid.toNat) = true := by
  rw [alGroupLoad] at h
  split at h
  · next halg _ =>
      obtain ⟨r, hr⟩ := mem_of_find halg
      obtain ⟨hmem, hgroup⟩ := List.mem_filter.mp hr
      exact ⟨r, hmem, hgroup⟩
  · cases h

theorem live_of_filterInsert {f : ApiFilter} (h : filterInsert inet e db t f = some (0, t')) :
    ∃ r ∈ liveRows db, r.belongs "group" (nts f.gid.toNat) = true := by
  obtain ⟨r, -, h⟩ := Option.bind_eq_some_iff.mp h
  split at h
  · obtain ⟨⟨load, g⟩, hload, h⟩ := Option.bind_eq_some_iff.mp h
    obtain ⟨⟨rc, s'⟩, hins, heq⟩ := Option.map_eq_some_iff.mp h
    cases heq
    by_cases hzero : load = 0
    · subst hzero
      exact live_of_load hload
    · exact absurd rfl (Filter.insert_unloaded hzero hins).1
  · next hreach =>
      obtain ⟨⟨rc, s'⟩, hins, heq⟩ := Option.map_eq_some_iff.mp h
      cases heq
      exact absurd rfl (insert_short (Bool.eq_false_iff.mpr hreach) rfl rfl hins).1

end Orders

section Stored
variable {key1 : String} {id : ℕ} {text : String → Option String} {keys : List String}
  {new : List Row}

theorem oneObject_rowsOf (h : rowsOf key1 (nts id) text keys = some new) :
    OneObject id key1 new :=
  ⟨fun _ hr => (mem_rowsOf h hr).2.1, fun _ hr => (mem_rowsOf h hr).2.2,
    fun _ hr => (mem_rowsOf h hr).1⟩

theorem mem_rowsOf_iff (h : rowsOf key1 (nts id) text keys = some new) {r : Row} :
    r ∈ new ↔ ∃ k ∈ keys, ∃ v, text k = some v ∧ r = fieldRow key1 (nts id) k v := by
  induction keys generalizing new with
  | nil =>
    cases h
    simp
  | cons a keys ih =>
    obtain ⟨s, rows', hs, hrows', rfl⟩ := rowsOf_cons.mp h
    rw [List.mem_cons, ih hrows', List.exists_mem_cons_iff]
    simp [hs]

theorem referenced_rowsOf (h : rowsOf key1 (nts id) text keys = some new) {k : String}
    (hk : k ∈ keys) (hfield : ∀ k', (key1, k') ∈ references ↔ k' = k) (g : String) :
    Referenced new g ↔ text k = some g := by
  have hnew := oneObject_rowsOf h
  constructor
  · rintro ⟨r, hr, href⟩
    obtain ⟨k', hk', v, hv, rfl⟩ := (mem_rowsOf_iff h).mp (mem_liveRows.mp hr).1
    rw [Row.reference] at href
    split at href
    · next hmem =>
        rw [(hfield k').mp hmem] at hv
        exact hv.trans href
    · cases href
  · intro htext
    have hr : fieldRow key1 (nts id) k g ∈ new := (mem_rowsOf_iff h).mpr ⟨k, hk, g, htext, rfl⟩
    refine ⟨_, mem_liveRows.mpr ⟨hr, rfl⟩, ?_⟩
    exact if_pos ((hfield k).mpr rfl)

theorem references_filter (k : String) : ("filter", k) ∈ references ↔ k = "group" := by
  simp [references]

theorem references_member (k : String) : ("member", k) ∈ references ↔ k = "group" := by
  simp [references]

end Stored

section Handlers
variable {inet : Inet} {e : Supply} {id : ℕ} {w : World Tables} {db db' : List Row}

theorem toOption_of_ok {α : Type} {x : Except Stop α} {a : α} (h : x = .ok a) : a ∈ x.toOption := by
  rw [h]
  rfl

variable {msg : Option Json} {a : Addition} {p : Points}

theorem groupAdd_ok (h : groupAdd (faithful (some id)) db msg = .ok db') :
    ∃ name, groupsNamed db name = [] ∧ db' = db ++ insertGroup id name := by
  simp only [groupAdd, bind_eq_ok, orStop_eq_ok] at h
  obtain ⟨j, -, h⟩ := h
  split at h
  · obtain ⟨name, -, h⟩ := bind_eq_ok.mp h
    rw [if_pos (faithful_search _)] at h
    split at h
    · cases h
    · next hnone =>
        cases h
        exact ⟨name, List.eq_nil_of_length_eq_zero (Nat.eq_zero_of_not_pos hnone), rfl⟩
  · cases h

theorem groupDelete_ok {args : Option Json} (h : groupDelete (faithful (some id)) db args = .ok db') :
    ∃ j kid, args = some j ∧ groupToDelete (faithful (some id)) db j = .ok kid ∧
      filtersNaming db kid = [] ∧ db' = retire (fun r => r.key2 == kid) db := by
  simp only [groupDelete, bind_eq_ok, orStop_eq_ok] at h
  obtain ⟨j, rfl, kid, hkid, h⟩ := h
  refine ⟨j, kid, rfl, hkid, ?_⟩
  rw [delGroupById, if_pos (faithful_fetch _)] at h
  split at h
  · cases h
  · next hnone =>
      cases h
      exact ⟨List.length_eq_zero_iff.mp (Classical.not_not.mp hnone), rfl⟩

theorem filterAdd_ok {f : ApiFilter}
    (hid : p.newid = some id) (h : filterAdd inet p w msg f = .ok a) :
    ∃ j f' group, msg = some j ∧ j.get "group" = some group ∧ a.id = id ∧
      a.rows = rowsOf "filter" (nts id) j.get (filterKeys j) ∧
      a.call = .filterInsert (installed f' id group) ∧
      a.object = .filter (nts id) (UInt32.ofNat id) := by
  simp only [filterAdd, bind_eq_ok, orStop_eq_ok] at h
  obtain ⟨j, rfl, ⟨f', name⟩, -, h⟩ := h
  dsimp only at h
  split at h
  · cases h
  · simp only [bind_eq_ok, orStop_eq_ok, text_eq_ok, hid] at h
    obtain ⟨vid, hvid, group, hgroup, h⟩ := h
    cases hvid
    split at h
    · cases h
      exact ⟨j, f', group, rfl, hgroup, rfl, toOption_orStop _ _, rfl, rfl⟩
    · cases h

theorem memberAdd_ok {conf : Member.AlMemberConf} (hid : p.newid = some id)
    (h : memberAdd inet p w msg conf = .ok a) :
    ∃ j gid fids, msg = some j ∧ a.id = id ∧
      a.rows = rowsOf "member" (nts id) (memberText j) (memberKeys j) ∧
      a.object = .member (nts id) (UInt32.ofNat id) gid fids ∧
      ∀ g, j.get "group" = some g → g ∈ ids (liveRows w.rows) "group" := by
  simp only [memberAdd, bind_eq_ok, orStop_eq_ok] at h
  obtain ⟨j, rfl, h⟩ := h
  split at h
  · obtain ⟨gid, hgid, h⟩ := bind_eq_ok.mp h
    split at h
    · cases h
    · next hne =>
        simp only [bind_eq_ok, orStop_eq_ok, hid] at h
        obtain ⟨conf', -, mid, hmid, h⟩ := h
        cases hmid
        split at h
        · cases h
          refine ⟨j, stn32 gid, filtersWithGroup w.rows gid, rfl, rfl, toOption_orStop _ _, rfl, ?_⟩
          intro g hg
          simp only [memberGroup, Json.has_of_get hg, if_true, Json.raw, hg, orStop, bind_eq_ok,
            Except.ok.injEq, exists_eq_left'] at hgid
          split at hgid
          · cases hgid
            rw [groupExistById] at hne
            split at hne
            · next hmem => exact hmem
            · exact absurd rfl hne
          · cases hgid
        · cases h
  · cases h

theorem dnsAdd_ok {args : Option Json} (hid : p.newid = some id) (h : dnsAdd p args = .ok a) :
    a.id = id ∧ (∀ new ∈ a.rows, ∀ r ∈ new, r.key2 = nts id) ∧
      ∀ db t t', (callees inet e).insert db t a.call ≠ some (0, t') := by
  simp only [dnsAdd, bind_eq_ok, orStop_eq_ok] at h
  obtain ⟨j, -, h⟩ := h
  split at h
  · obtain ⟨domain, -, h⟩ := bind_eq_ok.mp h
    split at h
    · simp only [bind_eq_ok, orStop_eq_ok, hid] at h
      obtain ⟨gid, -, dnsid, hdnsid, h⟩ := h
      cases hdnsid
      cases h
      refine ⟨rfl, fun new hnew r hr => (mem_rowsOf hnew hr).2.2, ?_⟩
      intro db t t' hcall
      simp only [Callees.insert, callees, dnsInsert] at hcall
      split at hcall <;> cases hcall
    · cases h
  · cases h

end Handlers

section Steps
variable {inet : Inet} {s s' : Store} {i : Asked}

theorem Asked.last_lt_id (s : Store) (i : Asked) : s.last < i.id s := by
  rw [Asked.id]
  omega

variable (h : Kempt s.last s.world.rows)
include h

theorem Kempt.liveGroup {g : String}
    (hg : ∃ r ∈ liveRows s.world.rows, r.belongs "group" g = true) : LiveGroup s.world.rows g := by
  obtain ⟨r, hr, hgroup⟩ := hg
  exact liveGroup_of_live hr hgroup h.whole

variable {w : World Tables} {c : Callees Tables View}

theorem Kempt.addition {id : ℕ} (hid : s.last < id) (hint : id < 2 ^ 31) {req : Add}
    (hok : ∀ a, Rest.addition inet (faithful (some id)) s.world req = .ok a →
      a.id = id ∧ (∀ new ∈ a.rows, ∀ r ∈ new, r.key2 = nts id) ∧
      ∀ new t, a.rows = some new → c.insert (s.world.rows ++ new) s.world.tables a.call = some (0, t) →
        Kempt id (s.world.rows ++ new))
    (hw : (handle c inet (faithful (some id)) s.world (.add req)).world = some w) : Kempt id w.rows := by
  simp only [handle] at hw
  split at hw
  · rw [Stop.reply_world hw]
    exact h.mono hid.le
  · next a ha =>
      obtain ⟨rfl, hkey, hkept⟩ := hok a ha
      rcases Addition.run_rows hw with ⟨new, hnew, hrows⟩ | ⟨new, t, hnew, -, hcall, hrows⟩
      · have hkeys : ∀ r ∈ new, r.key2 = nts a.id := by
          rcases hnew with rfl | hnew
          · intro r hr
            cases hr
          · exact hkey new hnew
        rw [hrows, h.rollback_append hid hint hkeys]
        exact h.mono hid.le
      · rw [hrows]
        exact hkept new t hnew hcall

theorem Kempt.filterAdd {msg : Option Json} {f : ApiFilter}
    (horder : i.order = .filterAdd msg f) (hg : Prudent s i)
    (hw : (i.order.handle inet i.supply (faithful (some (i.id s))) s.world).world = some w) :
    Kempt (i.id s) w.rows := by
  have hid := i.last_lt_id s
  simp only [Prudent, horder, Order.Prudent] at hg
  simp only [horder, Order.handle] at hw
  refine h.addition hid hg.1 (fun a ha => ?_) hw
  obtain ⟨j, f', group, rfl, hgroup, haid, harows, hcall, -⟩ := filterAdd_ok rfl ha
  refine ⟨haid, ?_, ?_⟩
  · intro new hnew
    rw [harows] at hnew
    exact fun r hr => (mem_rowsOf hnew hr).2.2
  · intro new t hnew hinsert
    rw [harows] at hnew
    rw [hcall] at hinsert
    have hobject := oneObject_rowsOf hnew
    have hmem : "group" ∈ filterKeys j := by simp [filterKeys, filterNeeds]
    have hnames := referenced_rowsOf hnew hmem references_filter
    -- the group that was loaded is an old one
    have hloaded : LiveGroup s.world.rows (nts (stn32 group).toNat) := by
      refine h.liveGroup ?_
      obtain ⟨r, hr, hbelongs⟩ := live_of_filterInsert hinsert
      rcases List.mem_append.mp (mem_liveRows.mp hr).1 with hold | hadded
      · exact ⟨r, mem_liveRows.mpr ⟨hold, (mem_liveRows.mp hr).2⟩, hbelongs⟩
      · rw [Row.belongs, hobject.kind r hadded] at hbelongs
        cases hbelongs
    refine h.refer hid hobject (by decide) (hg.2 j rfl group hgroup hloaded)
      ((hnames group).mpr hgroup) ?_ (.inl ⟨rfl, ?_⟩)
    · intro g' hg'
      exact Option.some.inj (((hnames g').mp hg').symm.trans hgroup)
    · exact filtersNaming_ne_nil.mpr
        ⟨_, (mem_rowsOf_iff hnew).mpr ⟨"group", hmem, group, hgroup, rfl⟩, rfl, rfl, rfl⟩

theorem Kempt.memberAdd {msg : Option Json}
    {conf : Member.AlMemberConf} (horder : i.order = .memberAdd msg conf) (hg : Prudent s i)
    (hw : (i.order.handle inet i.supply (faithful (some (i.id s))) s.world).world = some w) :
    Kempt (i.id s) w.rows := by
  have hid := i.last_lt_id s
  simp only [Prudent, horder, Order.Prudent] at hg
  simp only [horder, Order.handle] at hw
  refine h.addition hid hg.1 (fun a ha => ?_) hw
  obtain ⟨j, _, _, rfl, haid, harows, -, hlive⟩ := memberAdd_ok rfl ha
  refine ⟨haid, ?_, ?_⟩
  · intro new hnew
    rw [harows] at hnew
    exact fun r hr => (mem_rowsOf hnew hr).2.2
  · intro new t hnew _
    rw [harows] at hnew
    have hmem : "group" ∈ memberKeys j := by simp [memberKeys]
    have hnames := referenced_rowsOf hnew hmem references_member
    obtain ⟨g, hgroup⟩ := Option.isSome_iff_exists.mp (isSome_of_rowsOf hnew hmem)
    refine h.refer hid (oneObject_rowsOf hnew) (by decide)
      (h.liveGroup (mem_ids.mp (hlive g hgroup))) ((hnames g).mpr hgroup) ?_
      (.inr (hg.2 j rfl g hgroup))
    intro g' hg'
    exact Option.some.inj (((hnames g').mp hg').symm.trans hgroup)

theorem Kempt.removal {p : Points} {req : Delete}
    (hok : ∀ r, Rest.removal inet p s.world req = .ok r →
      ∃ kid, (r.marks = fun r => r.key2 == kid) ∧ Spare s.world.rows kid ∧
        (LiveGroup s.world.rows kid → ¬ Referenced s.world.rows kid))
    (hw : (handle c inet p s.world (.delete req)).world = some w) :
    Kempt s.last w.rows := by
  simp only [handle] at hw
  split at hw
  · rw [Stop.reply_world hw]
    exact h
  · next r hr =>
      obtain ⟨kid, hmarks, hspare, hunused⟩ := hok r hr
      rcases Removal.run_rows hw with hrows | hrows
      · rw [hrows, hmarks]
        exact h.retire hspare hunused
      · rw [hrows]
        exact h

theorem Kempt.not_liveGroup_member {gid mid : String}
    (hmem : membersToDelete s.world gid mid ≠ []) : ¬ LiveGroup s.world.rows mid := by
  intro hg
  obtain ⟨r, hr, hgroup⟩ := hg.stored
  obtain ⟨hkind, hkey⟩ := belongs_iff.mp hgroup
  obtain ⟨m, hm⟩ := List.exists_mem_of_ne_nil _ hmem
  simp only [membersToDelete, List.mem_filter, Bool.and_eq_true, Bool.or_eq_true, beq_iff_eq] at hm
  obtain ⟨hid, hmid, -⟩ := hm
  rcases hmid with rfl | rfl
  · -- no row has an empty id
    obtain ⟨k, -, hk⟩ := h.ids r hr
    obtain ⟨c, ds, hrepr, -⟩ := Numerals.exists_digit k
    rw [nts] at hk
    rw [← hk, hkey] at hrepr
    cases hrepr
  · obtain ⟨r', hr', hmember⟩ := mem_ids.mp hid
    obtain ⟨hkind', hkey'⟩ := belongs_iff.mp hmember
    have hsame := h.kinds r hr r' (mem_liveRows.mp hr').1 (hkey.trans hkey'.symm)
    rw [hkind, hkind'] at hsame
    exact absurd hsame (by decide)

theorem Kempt.step (hg : Prudent s i)
    (hs : orderStep inet s i = some s') : Kempt s'.last s'.world.rows := by
  have hid := i.last_lt_id s
  obtain ⟨w, hw, rfl⟩ := Option.map_eq_some_iff.mp hs
  change Kempt (i.id s) w.rows
  cases horder : i.order with
  | groupAdd msg =>
    simp only [horder, Order.handle] at hw
    cases hadd : Rest.groupAdd (faithful (some (i.id s))) s.world.rows msg with
    | error e =>
      rw [hadd] at hw
      rw [Stop.reply_world hw]
      exact h.mono hid.le
    | ok db' =>
      rw [hadd] at hw
      cases hw
      obtain ⟨name, hname, rfl⟩ := groupAdd_ok hadd
      exact h.insertGroup hid hname
  | groupDelete args =>
    simp only [Prudent, horder, Order.Prudent] at hg
    simp only [horder, Order.handle] at hw
    cases hdel : Rest.groupDelete (faithful (some (i.id s))) s.world.rows args with
    | error e =>
      rw [hdel] at hw
      rw [Stop.reply_world hw]
      exact h.mono hid.le
    | ok db' =>
      rw [hdel] at hw
      cases hw
      obtain ⟨j, kid, rfl, hkid, hnone, rfl⟩ := groupDelete_ok hdel
      refine (h.retire (hg j rfl kid (toOption_of_ok hkid)) ?_).mono hid.le
      intro hlive href
      exact (h.balanced kid hlive).mpr href hnone
  | filterAdd msg f => exact h.filterAdd horder hg hw
  | filterDelete args f =>
    simp only [Prudent, horder, Order.Prudent] at hg
    simp only [horder, Order.handle] at hw
    refine (h.removal (fun r hr => ?_) hw).mono hid.le
    obtain ⟨j, kid, rfl, hkid, hmarks, -⟩ := filterDelete_ok hr
    exact ⟨kid, hmarks, hg j rfl kid (toOption_of_ok hkid)⟩
  | memberAdd msg conf => exact h.memberAdd horder hg hw
  | memberDelete args =>
    simp only [Prudent, horder, Order.Prudent] at hg
    simp only [horder, Order.handle] at hw
    refine (h.removal (fun r hr => ?_) hw).mono hid.le
    obtain ⟨j, gid, mid, rfl, hinfo, hmem, hmarks, -⟩ := memberDelete_ok hr
    refine ⟨mid, hmarks, hg j rfl (gid, mid) (toOption_of_ok hinfo) hmem, ?_⟩
    exact fun hlive => absurd hlive (h.not_liveGroup_member hmem)
  | domainAdd args =>
    simp only [Prudent, horder, Order.Prudent] at hg
    simp only [horder, Order.handle] at hw
    refine h.addition hid hg (fun a ha => ?_) hw
    -- `al_dns_insert` always fails, so nothing is kept
    obtain ⟨haid, hkey, hcall⟩ := dnsAdd_ok rfl ha
    exact ⟨haid, hkey, fun new t _ hok => absurd hok (hcall _ _ _)⟩
  | domainDelete args =>
    simp only [horder, Order.handle] at hw
    refine (h.removal (fun r hr => ?_) hw).mono hid.le
    simp only [Rest.removal, dnsDelete, bind_eq_ok] at hr
    obtain ⟨j, -, hr⟩ := hr
    split at hr
    · obtain ⟨_, -, hr⟩ := bind_eq_ok.mp hr
      cases hr
    · cases hr

end Steps

/-- Live objects name live groups, and the groups that can be deleted are those that none of them
names. -/
theorem references_consistent {inet : Inet} {t : Tables} {is : List Asked}
    (hg : Guarded (orderStep inet) Prudent ⟨0, [], t⟩ is) {s : Store}
    (h : is.foldlM (orderStep inet) ⟨0, [], t⟩ = some s) : Consistent s.world.rows := by
  have hkempt : Kempt s.last s.world.rows :=
    hg.foldlM_invariant (P := fun s : Store => Kempt s.last s.world.rows)
      (fun _ _ _ hk hi hs => hk.step hi hs) kempt_nil h
  exact hkempt.consistent

def asked (order : Order) : Asked :=
  ⟨ample, 0, order⟩

def webGroup : Asked :=
  asked (.groupAdd (some (jsonOf [("name", "web")])))

def toWebFilter : Asked :=
  asked (.filterAdd (some (webFilter "tcp")) blankFilter)

def toWebMember : Asked :=
  asked (.memberAdd (some (webMember "80")) blankConf)

def removeWeb : Asked :=
  asked (.groupDelete (some (jsonOf [("id", "1")])))

def storeAfter (is : List Asked) : Option Store :=
  is.foldlM (orderStep someInet) ⟨0, [], Tables.empty⟩

theorem consistent_with_member :
    ∃ s, storeAfter [webGroup, toWebFilter, toWebMember, removeWeb] = some s ∧
      Consistent s.world.rows ∧ ids (liveRows s.world.rows) "member" = ["3"] := by
  have hrun : ((storeAfter [webGroup, toWebFilter, toWebMember, removeWeb]).map
      fun s => ids (liveRows s.world.rows) "member") = some ["3"] := by
    decide +kernel
  obtain ⟨s, hs, hids⟩ := Option.map_eq_some_iff.mp hrun
  have hguarded : Guarded (orderStep someInet) Prudent ⟨0, [], Tables.empty⟩
      [webGroup, toWebFilter, toWebMember, removeWeb] := by
    decide +kernel
  exact ⟨s, hs, references_consistent hguarded hs, hids⟩

theorem member_without_group : ∃ s, storeAfter [webGroup, toWebMember, removeWeb] = some s ∧
    ¬ Consistent s.world.rows := by
  have hrun : ((storeAfter [webGroup, toWebMember, removeWeb]).map fun s =>
      (decide (Referenced s.world.rows "1"), decide (LiveGroup s.world.rows "1"))) =
      some (true, false) := by
    decide +kernel
  obtain ⟨s, hs, hstate⟩ := Option.map_eq_some_iff.mp hrun
  obtain ⟨hnamed, hlive⟩ := Prod.mk.inj hstate
  refine ⟨s, hs, fun h => ?_⟩
  exact of_decide_eq_false hlive (h.intact.live "1" (of_decide_eq_true hnamed))

end Aware.Rest
