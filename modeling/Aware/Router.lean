import Aware.Address
import Aware.Radix.Refinement

/-!
# The routing tables

One radix tree for each family and for the policy and the main table. Addresses are read in the
order of their bytes in memory, so the first bit is the one a prefix starts with.
-/
namespace Aware.Router
open Function Aware.BitStrings Aware.Radix

inductive Table where
  | policy
  | main
deriving DecidableEq, Repr

def alRouter (type : UInt8) : Table :=
  if type = 0 then .policy else .main

structure Route (w : ℕ) where
  id : UInt16
  rtype : UInt8
  nexthop : BitVec w
  oif : UInt8
deriving DecidableEq, Repr

abbrev Tables :=
  (f : Family) → Table → Tree f.width (Route f.width)

def alRouterInit : Tables :=
  fun _ _ => rnInithead

def Tables.set (t : Tables) (f : Family) (k : Table) (tree : Tree f.width (Route f.width)) :
    Tables :=
  update t f (update (t f) k tree)

section
variable (ports : UInt32 → Option UInt8)

/-- The return code and the tables; `ports` is `al_get_port_index_byid`. -/
def alRouterInsert (t : Tables) (f : Family) (id : UInt16) (subnet : BitVec f.width)
    (mask : Mask f.width) (nexthop : Option (BitVec f.width)) (rtype : UInt8) (oif : UInt32) :
    Int × Tables :=
  match ports oif with
  | none => (0, t)
  | some index =>
    let route : Route f.width := ⟨id, rtype, nexthop.getD 0, index⟩
    match rnAddroute (subnet &&& mask.bits) mask.len route (t f (alRouter rtype)) with
    | none => (-1, t)
    | some tree => (0, t.set f (alRouter rtype) tree)

def alRouterDelete (t : Tables) (f : Family) (subnet : BitVec f.width) (mask : Mask f.width)
    (type : UInt8) : Int × Tables :=
  match rnDelete (subnet &&& mask.bits) mask.len (t f (alRouter type)) with
  | none => (-1, t)
  | some (l, tree) => (l.data.id.toNat, t.set f (alRouter type) tree)

def Route.resolve {w : ℕ} (r : Route w) (dst : BitVec w) : BitVec w × UInt8 :=
  (if r.nexthop = 0 then dst else r.nexthop, r.oif)

def alRouterFind (t : Tables) (f : Family) (src : Option (BitVec f.width))
    (dst : BitVec f.width) : Option (BitVec f.width × UInt8) :=
  let main := (rnMatch dst (t f .main)).map fun l => l.data.resolve dst
  match src with
  | none => main
  | some s =>
    match rnMatch s (t f .policy) with
    | some l => some (l.data.resolve dst)
    | none => main

inductive Op where
  | insert (f : Family) (id : UInt16) (subnet : BitVec f.width) (mask : Mask f.width)
      (nexthop : Option (BitVec f.width)) (rtype : UInt8) (oif : UInt32)
  | delete (f : Family) (subnet : BitVec f.width) (mask : Mask f.width) (type : UInt8)

def applyOp (t : Tables) : Op → Tables
  | .insert f id subnet mask nexthop rtype oif =>
    (alRouterInsert ports t f id subnet mask nexthop rtype oif).2
  | .delete f subnet mask type => (alRouterDelete t f subnet mask type).2

def run (ops : List Op) : Tables :=
  ops.foldl (applyOp ports) alRouterInit

abbrev Live :=
  (f : Family) → Table → PrefixMap f.width (Route f.width)

def Live.set (live : Live) (f : Family) (k : Table) (subnet : BitVec f.width)
    (mask : Mask f.width) (r : Option (Route f.width)) : Live :=
  update live f
    (update (live f) k ((live f k).set (subnet &&& mask.bits) mask.len r))

/-- A route becomes live unless one with its subnet and mask is, and a deletion ends it. -/
def Live.apply (live : Live) : Op → Live
  | .insert f id subnet mask nexthop rtype oif =>
    match ports oif, live f (alRouter rtype) (subnet &&& mask.bits) mask.len with
    | some index, none =>
      live.set f (alRouter rtype) subnet mask (some ⟨id, rtype, nexthop.getD 0, index⟩)
    | _, _ => live
  | .delete f subnet mask type => live.set f (alRouter type) subnet mask none

def liveAfter (ops : List Op) : Live :=
  ops.foldl (Live.apply ports) fun _ _ => PrefixMap.empty

end

def Selects {w : ℕ} (m : PrefixMap w (Route w)) (v dst : BitVec w) :
    Option (BitVec w × UInt8) → Prop
  | none => m.Uncovered v
  | some hop => ∃ r, m.Best v r ∧ hop = r.resolve dst

/-- The policy table on the source first, the main table on the destination otherwise. -/
def FindRule (live : Live) (f : Family) (src : Option (BitVec f.width)) (dst : BitVec f.width)
    (found : Option (BitVec f.width × UInt8)) : Prop :=
  match src with
  | none => Selects (live f .main) dst dst found
  | some s =>
    (∃ r, (live f .policy).Best s r ∧ found = some (r.resolve dst)) ∨
      ((live f .policy).Uncovered s ∧ Selects (live f .main) dst dst found)

variable {ports : UInt32 → Option UInt8} {t : Tables} {live : Live}

def Tracks (t : Tables) (live : Live) : Prop :=
  ∀ f k, Represents (t f k) (live f k)

variable {f : Family} {k : Table} {r : Option (Route f.width)} {subnet : BitVec f.width}

theorem Tracks.set (h : Tracks t live) {tree : Tree f.width (Route f.width)} {mask : Mask f.width}
    (htree : Represents tree ((live f k).set (subnet &&& mask.bits) mask.len r)) :
    Tracks (t.set f k tree) (live.set f k subnet mask r) := by
  intro f' k'
  unfold Tables.set Live.set
  rcases eq_or_ne f' f with rfl | hf
  · rw [update_self, update_self]
    rcases eq_or_ne k' k with rfl | hk
    · rwa [update_self, update_self]
    · rw [update_of_ne hk, update_of_ne hk]
      exact h f' k'
  · rw [update_of_ne hf, update_of_ne hf]
    exact h f' k'

theorem Live.set_self (live : Live) (f : Family) (k : Table) (subnet : BitVec f.width)
    (mask : Mask f.width) (r : Option (Route f.width)) :
    live.set f k subnet mask r f k (subnet &&& mask.bits) mask.len = r := by
  rw [Live.set, update_self, update_self]
  exact if_pos ⟨rfl, rfl⟩

theorem Live.set_eq_self {mask : Mask f.width} (h : live f k (subnet &&& mask.bits) mask.len = r) :
    live.set f k subnet mask r = live := by
  rw [Live.set, PrefixMap.set_eq_self h, update_eq_self, update_eq_self]

theorem Tracks.step (h : Tracks t live) (op : Op) :
    Tracks (applyOp ports t op) (live.apply ports op) := by
  cases op with
  | insert f id subnet mask nexthop rtype oif =>
    simp only [applyOp, alRouterInsert, Live.apply]
    cases hport : ports oif with
    | none => exact h
    | some index =>
      have hspec := (h f (alRouter rtype)).rnAddroute (fresh_mask subnet mask)
        ⟨id, rtype, nexthop.getD 0, index⟩
      cases hadd : rnAddroute (subnet &&& mask.bits) mask.len
          ⟨id, rtype, nexthop.getD 0, index⟩ (t f (alRouter rtype)) with
      | none =>
        rw [hadd] at hspec
        obtain ⟨r, hr⟩ := Option.ne_none_iff_exists'.mp hspec
        simpa only [hadd, hr] using h
      | some tree =>
        rw [hadd] at hspec
        simpa only [hadd, hspec.1] using h.set hspec.2
  | delete f subnet mask type =>
    have hspec := (h f (alRouter type)).rnDelete (subnet &&& mask.bits) mask.len
    simp only [applyOp, alRouterDelete, Live.apply]
    cases hdel : rnDelete (subnet &&& mask.bits) mask.len (t f (alRouter type)) with
    | none =>
      rw [hdel] at hspec
      rwa [Live.set_eq_self hspec]
    | some r =>
      rw [hdel] at hspec
      exact h.set hspec.2

theorem tracks_run (ports : UInt32 → Option UInt8) (ops : List Op) :
    Tracks (run ports ops) (liveAfter ports ops) := by
  have hstart : Tracks alRouterInit fun _ _ => PrefixMap.empty := fun f _ =>
    represents_rnInithead (by cases f <;> decide)
  have hrun : ∀ (ops : List Op) (t : Tables) (live : Live), Tracks t live →
      Tracks (ops.foldl (applyOp ports) t) (ops.foldl (Live.apply ports) live) := by
    intro ops
    induction ops with
    | nil => exact fun _ _ h => h
    | cons op ops ih => exact fun t live h => ih _ _ (h.step op)
  exact hrun ops _ _ hstart

theorem Tracks.selects (h : Tracks t live) {v dst : BitVec f.width}
    (hv : v ≠ BitVec.allOnes f.width) :
    Selects (live f k) v dst ((rnMatch v (t f k)).map fun l => l.data.resolve dst) := by
  have hspec := (h f k).rnMatch hv
  cases hmatch : rnMatch v (t f k) with
  | none =>
    rw [hmatch] at hspec
    exact hspec
  | some l =>
    rw [hmatch] at hspec
    exact ⟨l.data, hspec, rfl⟩

/-- After every history of insertions and deletions, a lookup follows the longest-prefix rule
unless one of its addresses is all ones. -/
theorem find_follows_rule (ports : UInt32 → Option UInt8) (ops : List Op) (f : Family)
    (src : Option (BitVec f.width)) (dst : BitVec f.width) (hdst : dst ≠ BitVec.allOnes f.width)
    (hsrc : src ≠ some (BitVec.allOnes f.width)) :
    FindRule (liveAfter ports ops) f src dst (alRouterFind (run ports ops) f src dst) := by
  have h := tracks_run ports ops
  cases src with
  | none => exact h.selects hdst
  | some s =>
    have hs : s ≠ BitVec.allOnes f.width := fun heq => hsrc (congrArg some heq)
    have hspec := (h f .policy).rnMatch hs
    simp only [FindRule, alRouterFind]
    cases hmatch : rnMatch s (run ports ops f .policy) with
    | none =>
      rw [hmatch] at hspec
      exact .inr ⟨hspec, h.selects hdst⟩
    | some l =>
      rw [hmatch] at hspec
      exact .inl ⟨l.data, hspec, rfl⟩

def onePort (oif : UInt32) : Option UInt8 :=
  if oif = 7 then some 3 else none

def slash8 : Mask Family.inet.width :=
  ⟨8, by decide⟩

def nestedOps : List Op :=
  [.insert .inet 1 0 .any (some 0x0a000001) 1 7,
    .insert .inet 2 0x0a010203 slash8 none 1 7,
    .insert .inet 3 0x0a010000 ⟨16, by decide⟩ (some 0x0a0100fe) 1 7,
    .delete .inet 0x0aff0000 slash8 1]

theorem find_follows_rule_nested :
    FindRule (liveAfter onePort nestedOps) .inet none 0x0a010909
        (alRouterFind (run onePort nestedOps) .inet none 0x0a010909) ∧
      alRouterFind (run onePort nestedOps) .inet none 0x0a010909 = some (0x0a0100fe, 3) :=
  ⟨find_follows_rule onePort nestedOps .inet none 0x0a010909 (by decide) (by decide),
    by decide +kernel⟩

def policyDefault : List Op :=
  [.insert .inet 1 0 .any (some 0x0a000001) 0 7]

theorem all_ones_source_unrouted :
    (0x0a010909 : BitVec 32) ≠ BitVec.allOnes 32 ∧
      ¬ FindRule (liveAfter onePort policyDefault) .inet (some (BitVec.allOnes 32)) 0x0a010909
        (alRouterFind (run onePort policyDefault) .inet (some (BitVec.allOnes 32))
          0x0a010909) := by
  refine ⟨by decide, ?_⟩
  have hfound : alRouterFind (run onePort policyDefault) .inet (some (BitVec.allOnes 32))
      0x0a010909 = none := by decide +kernel
  have hlive : liveAfter onePort policyDefault .inet .policy 0 0 =
      some ⟨1, 0, 0x0a000001, 3⟩ := by decide +kernel
  rw [hfound]
  rintro (⟨r, -, hr⟩ | ⟨hnone, -⟩)
  · cases hr
  · have hcover : BitVec.allOnes 32 &&& leadingOnes 0 = 0 := by decide
    exact hnone 0 0 _ hlive hcover

end Aware.Router
