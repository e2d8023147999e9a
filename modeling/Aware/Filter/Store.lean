import Aware.Filter.Chain
import Aware.Lib.Runs
import Aware.Radix.Refinement

/-!
# The filter tables

A radix tree for each family maps a prefix to an index, and the red-black tree maps the index
to the chain of the prefix. The keys of the radix trees are the addresses of the requests as they
are, with whatever bits they have outside their masks.
-/
namespace Aware.Filter
open Function Aware.Radix

abbrev Trees :=
  (f : Family) → Tree f.width UInt32

structure Filters where
  tree : Trees
  chains : UInt32 → Option AlFilterChain
  index : UInt32

def alFilterInit : Filters :=
  ⟨fun _ => rnInithead, fun _ => none, 0⟩

structure Request where
  family : Family
  addr : BitVec family.width
  mask : Mask family.width
  conf : FilterConf
deriving DecidableEq, Repr

/-- What the calls of an insertion outside the tables return: `al_group_load`, `al_calloc`, and
the memory for a node and an overflow cluster. -/
structure Env where
  load : Int
  calloc : Bool
  node : Option FilterCluster
  fresh : Option FilterCluster

/-- The index is taken also when the tree refuses the prefix; `0` stands for failure. -/
def alFilterRadixInsert (s : Filters) (r : Request) (calloc : Bool) : UInt32 × Filters :=
  if calloc then
    let index := s.index + 1
    match rnAddroute r.addr r.mask.len index (s.tree r.family) with
    | none => (0, { s with index })
    | some t => (index, { s with tree := update s.tree r.family t, index })
  else (0, s)

def alFilterRadixDel (s : Filters) (r : Request) : UInt32 × Filters :=
  match rnDelete r.addr r.mask.len (s.tree r.family) with
  | none => (0, s)
  | some (l, t) => (l.data, { s with tree := update s.tree r.family t })

def alFilterRadixLookup (s : Filters) (r : Request) : UInt32 :=
  match rnLookup r.addr r.mask.len (s.tree r.family) with
  | none => 0
  | some l => l.data

/-- `al_filter4_search` and `al_filter6_search`: `none` is a read out of bounds, `some none` the
return code `-1`. -/
def alFilterSearch (s : Filters) (f : Family) (dst : BitVec f.width) (port : UInt16)
    (proto : UInt8) : Option (Option AlFargs) :=
  match rnMatch dst (s.tree f) with
  | none => some none
  | some l =>
    match s.chains l.data with
    | none => some none
    | some c => (alFilterLookup c port proto).map fun m => m.map AlFilter.fargs

/-- The index that the request is added to, when the longest prefix of its address has its mask. -/
def alFilterSame (s : Filters) (r : Request) : Option UInt32 :=
  match rnMatch r.addr (s.tree r.family) with
  | none => none
  | some l => if l.len = r.mask.len then some l.data else none

/-- `none` is the access through the null pointer of a missing chain. -/
def alFilterInsert (s : Filters) (r : Request) (env : Env) : Option (Int × Filters) :=
  match alFilterSame s r with
  | some index =>
    match s.chains index with
    | none => none
    | some c =>
      let added := alFilterAdd c r.conf env.load env.fresh
      some (added.1, { s with chains := update s.chains index (some added.2) })
  | none =>
    let (index, s') := alFilterRadixInsert s r env.calloc
    if index = 0 then some (-1, s')
    else
      match env.node with
      | none => some (-1, (alFilterRadixDel s' r).2)
      | some mem =>
        let added := alFilterAdd (newChain mem) r.conf env.load env.fresh
        if added.1 = 0 then
          some (0, { s' with chains := update s'.chains index (some added.2) })
        else some (-1, (alFilterRadixDel s' r).2)

def alFilterDel (s : Filters) (r : Request) : Option (Int × Filters) :=
  let index := alFilterRadixLookup s r
  if index = 0 then some (-1, s)
  else
    match s.chains index with
    | none => some (-1, s)
    | some c =>
      match alFilterDelete c r.conf.id with
      | none => none
      | some (found, c') =>
        let rc : Int := if found then 0 else -1
        if c'.nums = 0 then
          let (removed, s') := alFilterRadixDel s r
          some (if removed = 0 then -1 else rc,
            { s' with chains := update s'.chains index none })
        else some (rc, { s with chains := update s.chains index (some c') })

inductive Op where
  | insert (r : Request) (env : Env)
  | del (r : Request)

def applyOp (s : Filters) : Op → Option (Int × Filters)
  | .insert r env => alFilterInsert s r env
  | .del r => alFilterDel s r

def step (s : Filters) (op : Op) : Option Filters :=
  (applyOp s op).map Prod.snd

def Reached (ops : List Op) (s : Filters) : Prop :=
  ops.foldlM step alFilterInit = some s

section Kept
variable {s s' : Filters} {r : Request} {rc : Int}

structure Filters.Kept (s : Filters) : Prop where
  trees : ∀ f, Radix.Kept (s.tree f)
  chains : ∀ index, ∀ c ∈ s.chains index, c.Sound ∧ 0 < c.nums
  zero : s.chains 0 = none

theorem Filters.Kept.rechain (h : s.Kept) {index : UInt32} {c : Option AlFilterChain}
    (hc : ∀ c' ∈ c, index ≠ 0 ∧ c'.Sound ∧ 0 < c'.nums) :
    Filters.Kept { s with chains := update s.chains index c } := by
  refine ⟨h.trees, fun i c' hc' => ?_, ?_⟩ <;> dsimp only at *
  · rcases eq_or_ne i index with rfl | hne
    · rw [update_self] at hc'
      exact (hc c' hc').2
    · rw [update_of_ne hne] at hc'
      exact h.chains i c' hc'
  · rcases eq_or_ne 0 index with rfl | hne
    · rw [update_self]
      exact Option.eq_none_iff_forall_not_mem.mpr fun c' hc' => (hc c' hc').1 rfl
    · rw [update_of_ne hne]
      exact h.zero

theorem Filters.Kept.replant (h : s.Kept) {f : Family} {t : Tree f.width UInt32} (ht : Radix.Kept t)
    (index : UInt32) : Filters.Kept ⟨update s.tree f t, s.chains, index⟩ := by
  refine ⟨fun f' => ?_, h.chains, h.zero⟩
  dsimp only
  rcases eq_or_ne f' f with rfl | hf
  · rwa [update_self]
  · rw [update_of_ne hf]
    exact h.trees f'

theorem Filters.Kept.ne_zero (h : s.Kept) {index : UInt32} {c : AlFilterChain}
    (hc : s.chains index = some c) : index ≠ 0 := by
  rintro rfl
  cases h.zero.symm.trans hc

theorem Filters.Kept.radixInsert (h : s.Kept) (r : Request) (calloc : Bool) :
    (alFilterRadixInsert s r calloc).2.Kept := by
  simp only [alFilterRadixInsert]
  split
  · split
    · exact ⟨h.trees, h.chains, h.zero⟩
    · next hadd => exact h.replant ((h.trees r.family).rnAddroute hadd).1 _
  · exact h

theorem Filters.Kept.radixDel (h : s.Kept) (r : Request) : (alFilterRadixDel s r).2.Kept := by
  rw [alFilterRadixDel]
  split
  · exact h
  · next hdel => exact h.replant ((h.trees r.family).rnDelete hdel).1 _

theorem Filters.Kept.insert (h : s.Kept) {env : Env} (hs : alFilterInsert s r env = some (rc, s')) :
    s'.Kept := by
  have hins := h.radixInsert r env.calloc
  rw [alFilterInsert] at hs
  split at hs
  · split at hs
    · cases hs
    · next c hc =>
        obtain ⟨hsound, hnums⟩ := h.chains _ c hc
        have hspec := hsound.add_spec r.conf env.load env.fresh
        cases hs
        refine h.rechain fun c' hc' => ⟨h.ne_zero hc, ?_⟩
        cases hc'
        split at hspec
        · obtain ⟨c', hadd, hsound', -, hpos⟩ := hspec
          rw [hadd]
          exact ⟨hsound', hpos (.inl hnums)⟩
        · obtain ⟨rc, -, hadd⟩ := hspec
          rw [hadd]
          exact ⟨hsound, hnums⟩
  · simp only at hs
    split at hs
    · cases hs
      exact hins
    · next hindex =>
        split at hs
        · cases hs
          exact hins.radixDel r
        · next mem _ =>
            have hspec := (newChain_sound mem).add_spec r.conf env.load env.fresh
            split at hs
            · next hzero =>
                cases hs
                refine hins.rechain fun c' hc' => ⟨hindex, ?_⟩
                cases hc'
                split at hspec
                · obtain ⟨c', hadd, hsound', -, hpos⟩ := hspec
                  rw [hadd]
                  exact ⟨hsound', hpos (.inr (newChain_firstFree mem))⟩
                · obtain ⟨rc, hrc, hadd⟩ := hspec
                  rw [hadd] at hzero
                  exact absurd hzero hrc
            · cases hs
              exact hins.radixDel r

theorem Filters.Kept.del (h : s.Kept) (hs : alFilterDel s r = some (rc, s')) : s'.Kept := by
  simp only [alFilterDel] at hs
  split at hs
  · cases hs
    exact h
  · split at hs
    · cases hs
      exact h
    · next c hc =>
        obtain ⟨hsound, hnums⟩ := h.chains _ c hc
        obtain ⟨c', hdel, hsound', -, -⟩ := hsound.delete hnums r.conf.id
        rw [hdel] at hs
        simp only at hs
        split at hs
        · cases hs
          exact (h.radixDel r).rechain fun _ hnone => by cases hnone
        · next hne =>
            cases hs
            refine h.rechain fun c'' hc'' => ⟨h.ne_zero hc, ?_⟩
            cases hc''
            exact ⟨hsound', UInt16.pos_iff_ne_zero.mpr hne⟩

theorem Filters.Kept.step (h : s.Kept) {op : Op} (hs : step s op = some s') : s'.Kept := by
  obtain ⟨⟨rc, _⟩, happly, rfl⟩ := Option.map_eq_some_iff.mp hs
  cases op with
  | insert r env => exact h.insert happly
  | del r => exact h.del happly

theorem kept_alFilterInit : alFilterInit.Kept where
  trees f := kept_rnInithead (by cases f <;> decide)
  chains := by
    rintro index c ⟨⟩
  zero := rfl

theorem Reached.kept {ops : List Op} (h : Reached ops s) : s.Kept :=
  Runs.foldlM_invariant (fun _ _ _ _ hs => hs.step) kept_alFilterInit h

end Kept

section Accept
variable {s : Filters}

/-- The longest prefix of the address has the mask of the request and a chain, or the prefix is
new and the index does not come round to `0`. -/
def Accepts (s : Filters) (r : Request) : Prop :=
  match (rnMatch r.addr (s.tree r.family)).filter fun l => l.len == r.mask.len with
  | some l => (s.chains l.data).isSome
  | none => ¬ (s.tree r.family).Taken r.addr r.mask.len ∧ s.index + 1 ≠ 0

theorem alFilterSame_eq (s : Filters) (r : Request) :
    alFilterSame s r = ((rnMatch r.addr (s.tree r.family)).filter
      fun l => l.len == r.mask.len).map Leaf.data := by
  rw [alFilterSame]
  cases rnMatch r.addr (s.tree r.family) with
  | none => rfl
  | some l => by_cases hlen : l.len = r.mask.len <;> simp [Option.filter, hlen]

def Supplied (s : Filters) (r : Request) (env : Env) : Prop :=
  env.load = 0 ∧
    match (rnMatch r.addr (s.tree r.family)).filter fun l => l.len == r.mask.len with
    | some l => ∀ c ∈ s.chains l.data, takes c env.fresh = true
    | none => env.calloc = true ∧ env.node.isSome = true

theorem Filters.Kept.radixInsert_eq_zero (h : s.Kept) (r : Request) (calloc : Bool) :
    (alFilterRadixInsert s r calloc).1 = 0 ↔
      calloc = true → (s.tree r.family).Taken r.addr r.mask.len ∨ s.index + 1 = 0 := by
  simp only [alFilterRadixInsert]
  cases calloc with
  | false => simp
  | true =>
    simp only [if_true, forall_const]
    cases hadd : rnAddroute r.addr r.mask.len (s.index + 1) (s.tree r.family) with
    | none =>
      exact ⟨fun _ => .inl ((h.trees r.family).rnAddroute_eq_none_iff.mp hadd), fun _ => rfl⟩
    | some t =>
      exact ⟨.inr, fun hor => hor.resolve_left ((h.trees r.family).rnAddroute hadd).2.1⟩

theorem Filters.Kept.succeeds_iff (h : s.Kept) (r : Request) (env : Env) :
    (∃ s', alFilterInsert s r env = some (0, s')) ↔ Accepts s r ∧ Supplied s r env := by
  obtain ⟨load, calloc, node, fresh⟩ := env
  simp only [alFilterInsert, alFilterSame_eq, Accepts, Supplied]
  cases (rnMatch r.addr (s.tree r.family)).filter fun l => l.len == r.mask.len with
  | some l =>
    cases hchain : s.chains l.data with
    | none => simp [hchain]
    | some c =>
      have hspec := (h.chains _ c hchain).1.add_spec r.conf load fresh
      by_cases hadd : load = 0 ∧ takes c fresh = true
      · rw [if_pos hadd] at hspec
        obtain ⟨rfl, htakes⟩ := hadd
        obtain ⟨c', hadd', -⟩ := hspec
        simp [hchain, hadd', htakes]
      · rw [if_neg hadd] at hspec
        obtain ⟨rc, hrc, hadd'⟩ := hspec
        simpa [hchain, hadd', hrc] using hadd
  | none =>
    have hzero := h.radixInsert_eq_zero r calloc
    by_cases hindex : (alFilterRadixInsert s r calloc).1 = 0
    · have hnot := hzero.mp hindex
      simp only [Option.map_none, hindex, if_true, Option.some.injEq, Prod.mk.injEq, Int.reduceNeg,
        reduceCtorEq, false_and, exists_false, false_iff]
      rintro ⟨⟨htaken, hwrap⟩, -, hcalloc, -⟩
      exact (hnot hcalloc).elim htaken hwrap
    · have hnot := mt hzero.mpr hindex
      simp only [Classical.not_imp, not_or] at hnot
      obtain ⟨rfl, htaken, hwrap⟩ := hnot
      simp only [Option.map_none, hindex, if_false, htaken, hwrap, not_false_eq_true, ne_eq,
        true_and, and_self]
      cases node with
      | none => simp
      | some mem =>
        have hspec := (newChain_sound mem).add_spec r.conf load fresh
        have hroom : takes (newChain mem) fresh = true := by
          simp [takes, newChain_firstFree mem]
        by_cases hload : load = 0
        · rw [if_pos ⟨hload, hroom⟩] at hspec
          obtain ⟨c', hadd, -⟩ := hspec
          subst hload
          simp [hadd]
        · rw [if_neg fun hand => hload hand.1] at hspec
          obtain ⟨rc, hrc, hadd⟩ := hspec
          simp [hadd, hrc, hload]

/-- In every state that calls lead to, an insertion succeeds exactly when `Accepts` says so and
it gets what it needs from outside. -/
theorem insert_succeeds_iff {ops : List Op} (h : Reached ops s) (r : Request) (env : Env) :
    (∃ s', alFilterInsert s r env = some (0, s')) ↔ Accepts s r ∧ Supplied s r env :=
  h.kept.succeeds_iff r env

def blank : FilterCluster :=
  ⟨0, List.replicate filterClusterSize ⟨false, 0, 0, 0, 0, 0⟩, rfl⟩

def request (id : UInt32) (len : ℕ) (h : len ≤ 32) : Request :=
  ⟨.inet, 0x0a010000, ⟨len, h⟩, ⟨id, 1, 0, 6, 80⟩⟩

def wide (id : UInt32) : Request :=
  request id 16 (by decide)

def narrow (id : UInt32) : Request :=
  request id 24 (by decide)

def ampleEnv : Env :=
  ⟨0, true, some blank, some blank⟩

def nestedOps : List Op :=
  [.insert (wide 1) ampleEnv, .insert (narrow 2) ampleEnv]

def insertAfter (ops : List Op) (r : Request) : Option Int :=
  (ops.foldlM step alFilterInit).bind fun s =>
    (alFilterInsert s r ampleEnv).map Prod.fst

theorem insertAfter_eq_some (ops : List Op) (r : Request) (rc : Int)
    (h : insertAfter ops r = some rc) :
    ∃ s, Reached ops s ∧ ∃ s', alFilterInsert s r ampleEnv = some (rc, s') := by
  obtain ⟨s, hs, hrc⟩ := Option.bind_eq_some_iff.mp h
  obtain ⟨⟨_, s'⟩, hs', rfl⟩ := Option.map_eq_some_iff.mp hrc
  exact ⟨s, hs, s', hs'⟩

theorem insert_succeeds_iff_nested :
    ∃ s, Reached nestedOps s ∧ Accepts s (request 3 24 (by decide)) := by
  obtain ⟨s, hs, hins⟩ := insertAfter_eq_some nestedOps (request 3 24 (by decide)) 0
    (by decide +kernel)
  exact ⟨s, hs, ((insert_succeeds_iff hs _ ampleEnv).mp hins).1⟩

theorem second_filter_refused :
    ∃ s, Reached nestedOps s ∧
      ¬ ∃ s', alFilterInsert s (request 3 16 (by decide)) ampleEnv = some (0, s') := by
  obtain ⟨s, hs, s', hins⟩ := insertAfter_eq_some nestedOps (request 3 16 (by decide)) (-1)
    (by decide +kernel)
  refine ⟨s, hs, ?_⟩
  rintro ⟨s'', hs''⟩
  rw [hins] at hs''
  cases hs''

end Accept

end Aware.Filter
