import Aware.Filter.Store
import Aware.Tree.Delete
import Aware.Tree.Lookup

/-!
# The filter tree in memory

`al_filter_insert` and `al_filter_del` on the nodes of the red-black tree. Nothing keeps the index of a
new node from being that of an old one once it has come round, so the tree is not taken to be in order.
-/
namespace Aware.Filter.Nodes
open Aware.Tree

/-- The radix trees with the last index, the red-black tree, and the chain behind each of its
nodes. -/
structure Table where
  tree : Trees
  index : UInt32
  mem : Mem
  chain : Ptr → Option AlFilterChain

/-- `al_malloc` for a node returns `NULL` or memory that is not in use. -/
structure Malloc where
  answer : (Ptr → Bool) → Option (Ptr × Mem × FilterCluster)
  unused : ∀ live p old cluster, answer live = some (p, old, cluster) → live p = false

structure Env where
  load : Int
  calloc : Bool
  node : Malloc
  fresh : Option FilterCluster

def alFilterInit (sentinel : Ptr) : Table where
  tree _ := Radix.rnInithead
  index := 0
  mem :=
    { live := fun a => a == sentinel
      key := fun _ => 0
      child := fun _ _ => null
      parent := fun _ => null
      red := fun _ => false
      root := sentinel
      sentinel }
  chain _ := none

def Table.radix (s : Table) : Filters := ⟨s.tree, fun _ => none, s.index⟩

def Table.withRadix (s : Table) (f : Filters) : Table := { s with tree := f.tree, index := f.index }

def Table.setChain (s : Table) (p : Ptr) (c : Option AlFilterChain) : Table :=
  { s with chain := fun q => if q = p then c else s.chain q }

def claim (m old : Mem) (p : Ptr) : Mem :=
  { m with
    live := fun a => if a = p then true else m.live a
    key := fun a => if a = p then old.key a else m.key a
    child := fun d a => if a = p then old.child d a else m.child d a
    parent := fun a => if a = p then old.parent a else m.parent a
    red := fun a => if a = p then old.red a else m.red a }

def free (m : Mem) (p : Ptr) : Mem :=
  { m with live := fun a => if a = p then false else m.live a }

def insertNode (fuel : ℕ) (s : Table) (r : Request) (env : Env) (index : UInt32) (p : Ptr) (old : Mem)
    (cluster : FilterCluster) : Option (Int × Table) := do
  let m ← (claim s.mem old p).setKey p index.toUInt64
  let added := alFilterAdd (newChain cluster) r.conf env.load env.fresh
  if added.1 = 0 then
    let m ← alRbtreeInsert fuel p m
    pure (0, { s with mem := m }.setChain p (some added.2))
  else pure (-1, { s.withRadix (alFilterRadixDel s.radix r).2 with mem := free m p })

def alFilterInsert (fuel : ℕ) (s : Table) (r : Request) (env : Env) : Option (Int × Table) :=
  match alFilterSame s.radix r with
  | some index => do
    -- the result of the lookup is used without a test
    let p ← ← alRbtreeLookup fuel index.toUInt64 s.mem
    let c ← s.chain p
    let added := alFilterAdd c r.conf env.load env.fresh
    pure (added.1, s.setChain p (some added.2))
  | none =>
    let (index, f) := alFilterRadixInsert s.radix r env.calloc
    let s := s.withRadix f
    if index = 0 then some (-1, s)
    else
      match env.node.answer s.mem.live with
      | none => some (-1, s.withRadix (alFilterRadixDel s.radix r).2)
      | some (p, old, cluster) => insertNode fuel s r env index p old cluster

/-- The node is freed with the overflow clusters that it still has. -/
def dropNode (fuel : ℕ) (s : Table) (r : Request) (rc : Int) (p : Ptr) : Option (Int × Table) := do
  let (removed, f) := alFilterRadixDel s.radix r
  let m ← alRbtreeDelete fuel p s.mem
  pure (if removed = 0 then -1 else rc, { s.withRadix f with mem := free m p }.setChain p none)

def alFilterDel (fuel : ℕ) (s : Table) (r : Request) : Option (Int × Table) :=
  let index := alFilterRadixLookup s.radix r
  if index = 0 then some (-1, s)
  else do
    match ← alRbtreeLookup fuel index.toUInt64 s.mem with
    | none => pure (-1, s)
    | some p =>
      let c ← s.chain p
      let (found, c) ← alFilterDelete c r.conf.id
      let rc : Int := if found then 0 else -1
      if c.nums = 0 then dropNode fuel s r rc p else pure (rc, s.setChain p (some c))

inductive Op where
  | insert (r : Request) (env : Env)
  | del (r : Request)

def step (fuel : ℕ) (s : Table) (op : Op) : Option Table :=
  match op with
  | .insert r env => (alFilterInsert fuel s r env).map Prod.snd
  | .del r => (alFilterDel fuel s r).map Prod.snd

/-- The loops of the tree are given one turn more than there can be nodes. -/
def Reached (sentinel : Ptr) (ops : List Op) (s : Table) : Prop :=
  ops.foldlM (step (ops.length + 1)) (alFilterInit sentinel) = some s

structure Table.Sound (s : Table) (t : Tree.Nodes) : Prop where
  holds : Holds s.mem t
  valid : t.Valid
  chains : ∀ p ∈ t.inorder, ∃ c, s.chain p = some c ∧ c.Sound ∧ 0 < c.nums

section Add
variable {c : AlFilterChain}

theorem alFilterAdd_sound (h : c.Sound) (conf : FilterConf) (load : Int) (fresh : Option FilterCluster) :
    (alFilterAdd c conf load fresh).2.Sound ∧ (0 < c.nums → 0 < (alFilterAdd c conf load fresh).2.nums) ∧
      ((c.inl.firstFree AlFilter.isUsed).isSome → (alFilterAdd c conf load fresh).1 = 0 →
        0 < (alFilterAdd c conf load fresh).2.nums) := by
  by_cases hload : load = 0
  · subst hload
    have hmem : ∀ mem, (alFilterAdd c conf 0 (some mem)).2.Sound ∧
        (0 < c.nums ∨ (c.inl.firstFree AlFilter.isUsed).isSome →
          0 < (alFilterAdd c conf 0 (some mem)).2.nums) := by
      intro mem
      obtain ⟨c', hc', hsound, -, hnums⟩ := h.add conf mem
      rw [hc']
      exact ⟨hsound, hnums⟩
    cases fresh with
    | some mem => exact ⟨(hmem mem).1, fun hpos => (hmem mem).2 (.inl hpos), fun hfree _ => (hmem mem).2 (.inr hfree)⟩
    | none =>
      cases hfree : c.inl.firstFree AlFilter.isUsed with
      | some i =>
        -- an overflow cluster is not asked for
        have hsame : alFilterAdd c conf 0 none = alFilterAdd c conf 0 (some blank) := by
          simp [alFilterAdd, hfree]
        have hblank := hmem blank
        rw [hfree] at hblank
        rw [hsame]
        exact ⟨hblank.1, fun _ => hblank.2 (.inr rfl), fun _ _ => hblank.2 (.inr rfl)⟩
      | none =>
        have hsame : alFilterAdd c conf 0 none = (-1, c) := by
          simp [alFilterAdd, hfree, addList_eq_none h.single]
        rw [hsame]
        exact ⟨h, id, fun hnone => (by cases hnone)⟩
  · have hsame : alFilterAdd c conf load fresh = (load, c) := if_pos hload
    rw [hsame]
    exact ⟨h, id, fun _ hrc => absurd hrc hload⟩

end Add

section Steps
variable {s s' : Table} {t : Tree.Nodes} {r : Request} {p : Ptr} {fuel : ℕ} {rc : Int}

theorem Table.Sound.congr (h : s.Sound t) (hmem : s'.mem = s.mem)
    (hchain : ∀ p ∈ t.inorder, s'.chain p = s.chain p) : s'.Sound t := by
  refine ⟨?_, h.valid, fun p hp => ?_⟩
  · rw [hmem]
    exact h.holds
  · rw [hchain p hp]
    exact h.chains p hp

theorem Table.Sound.setChain {c : AlFilterChain} (h : s.Sound t) (hc : c.Sound) (hnums : 0 < c.nums) :
    (s.setChain p (some c)).Sound t := by
  refine ⟨h.holds, h.valid, fun q hq => ?_⟩
  by_cases hqp : q = p
  · exact ⟨c, if_pos hqp, hc, hnums⟩
  · obtain ⟨c', hc', hrest⟩ := h.chains q hq
    exact ⟨c', (if_neg hqp).trans hc', hrest⟩

theorem Table.Sound.lookup (h : s.Sound t) (k : UInt64) (hfuel : t.inorder.length < fuel) :
    ∃ found, alRbtreeLookup fuel k s.mem = some found ∧ ∀ p, found = some p → p ∈ t.inorder := by
  have hplace : Holds s.mem (RedBlack.plug [] t) := h.holds
  obtain ⟨found, hfound, hin, -⟩ := lookupFrom_holds (k := k) hplace hfuel
  refine ⟨found, ?_, fun p hp => (hin p hp).1⟩
  rw [alRbtreeLookup, h.holds.root]
  exact hfound

theorem claim_same (m old : Mem) (p : Ptr) (k : UInt64) {a : Ptr} (ha : a ≠ p) :
    SameNode m ((claim m old p).putKey p k) a ∧ ((claim m old p).putKey p k).live a = m.live a := by
  simp [SameNode, claim, Mem.putKey, ha]

theorem Table.Sound.insertNode {env : Env} {index : UInt32} {old : Mem} {cluster : FilterCluster}
    (h : s.Sound t) (hp : s.mem.live p = false) (hfuel : t.inorder.length < fuel)
    (hs : insertNode fuel s r env index p old cluster = some (rc, s')) :
    ∃ t', s'.Sound t' ∧ t'.inorder.length ≤ t.inorder.length + 1 := by
  have hout := h.holds.notMem hp
  have hset : (claim s.mem old p).setKey p index.toUInt64 =
      some ((claim s.mem old p).putKey p index.toUInt64) := write_live _ _ (if_pos rfl)
  simp only [Nodes.insertNode, hset, Option.bind_eq_bind, Option.bind_some] at hs
  obtain ⟨hsound, -, hnums⟩ := alFilterAdd_sound (newChain_sound cluster) r.conf env.load env.fresh
  split at hs
  · rename_i hrc
    have hclaimed : Holds ((claim s.mem old p).putKey p index.toUInt64) t :=
      h.holds.outside hout rfl rfl fun a ha => claim_same s.mem old p index.toUInt64 ha
    obtain ⟨m', t', hm', -, hholds, hvalid, hperm, -⟩ :=
      alRbtreeInsert_holds hclaimed h.valid (if_pos rfl) hout.2 hout.1 hfuel
    rw [hm'] at hs
    cases hs
    refine ⟨t', ⟨hholds, hvalid, fun q hq => ?_⟩, Nat.le_of_eq hperm.length_eq⟩
    by_cases hqp : q = p
    · exact ⟨_, if_pos hqp, hsound, hnums (newChain_firstFree cluster) hrc⟩
    · have hmem := (List.mem_cons.mp (hperm.mem_iff.mp hq)).resolve_left hqp
      obtain ⟨c, hc, hrest⟩ := h.chains q hmem
      exact ⟨c, (if_neg hqp).trans hc, hrest⟩
  · cases hs
    refine ⟨t, ⟨h.holds.outside hout rfl rfl fun a ha => ?_, h.valid, h.chains⟩, Nat.le_succ _⟩
    obtain ⟨hnode, hlive⟩ := claim_same s.mem old p index.toUInt64 ha
    exact ⟨hnode, (if_neg ha).trans hlive⟩

theorem Table.Sound.insert {env : Env} (h : s.Sound t) (hfuel : t.inorder.length < fuel)
    (hs : alFilterInsert fuel s r env = some (rc, s')) :
    ∃ t', s'.Sound t' ∧ t'.inorder.length ≤ t.inorder.length + 1 := by
  unfold alFilterInsert at hs
  split at hs
  · rename_i index _
    obtain ⟨found, hfound, hin⟩ := h.lookup index.toUInt64 hfuel
    cases found with
    | none =>
      rw [hfound] at hs
      cases hs
    | some p =>
      obtain ⟨c, hc, hsound, hpos⟩ := h.chains p (hin p rfl)
      simp only [hfound, hc, Option.bind_eq_bind, Option.bind_some] at hs
      cases hs
      obtain ⟨hadded, hnums, -⟩ := alFilterAdd_sound hsound r.conf env.load env.fresh
      exact ⟨t, h.setChain hadded (hnums hpos), Nat.le_succ _⟩
  · dsimp only at hs
    have hradix : (s.withRadix (alFilterRadixInsert s.radix r env.calloc).2).Sound t :=
      h.congr rfl fun _ _ => rfl
    split at hs
    · cases hs
      exact ⟨t, hradix, Nat.le_succ _⟩
    · split at hs
      · cases hs
        exact ⟨t, hradix.congr rfl fun _ _ => rfl, Nat.le_succ _⟩
      · rename_i hanswer
        exact hradix.insertNode (env.node.unused _ _ _ _ hanswer) hfuel hs

theorem Table.Sound.dropNode (h : s.Sound t) (hp : p ∈ t.inorder) (hfuel : t.inorder.length < fuel)
    {rc' : Int} (hs : dropNode fuel s r rc p = some (rc', s')) :
    ∃ t', s'.Sound t' ∧ t'.inorder.length ≤ t.inorder.length := by
  obtain ⟨m', t', hm', hsheds, hholds, hvalid, horder⟩ :=
    alRbtreeDelete_erase h.holds h.valid hp (Nat.le_of_lt hfuel)
  simp only [Nodes.dropNode, hm', Option.bind_eq_bind, Option.bind_some] at hs
  cases hs
  have hmem : ∀ q, q ∈ t'.inorder ↔ q ≠ p ∧ q ∈ t.inorder := by
    intro q
    rw [horder]
    exact h.holds.nodup.mem_erase_iff
  have hps : p ≠ s.mem.sentinel := fun heq => h.holds.away (heq ▸ hp)
  refine ⟨t', ⟨?_, hvalid, fun q hq => ?_⟩, ?_⟩
  · exact hholds.outside ⟨fun hp' => ((hmem p).mp hp').1 rfl, hsheds.sentinel ▸ hps⟩ rfl rfl
      fun a ha => ⟨⟨fun _ => rfl, rfl, rfl⟩, if_neg ha⟩
  · obtain ⟨hqp, hq⟩ := (hmem q).mp hq
    obtain ⟨c, hc, hrest⟩ := h.chains q hq
    exact ⟨c, (if_neg hqp).trans hc, hrest⟩
  · rw [horder]
    exact List.length_erase_le

theorem Table.Sound.del (h : s.Sound t) (hfuel : t.inorder.length < fuel)
    (hs : alFilterDel fuel s r = some (rc, s')) :
    ∃ t', s'.Sound t' ∧ t'.inorder.length ≤ t.inorder.length := by
  unfold alFilterDel at hs
  dsimp only at hs
  split at hs
  · cases hs
    exact ⟨t, h, Nat.le_refl _⟩
  · obtain ⟨found, hfound, hin⟩ := h.lookup (alFilterRadixLookup s.radix r).toUInt64 hfuel
    rw [hfound] at hs
    cases found with
    | none =>
      cases hs
      exact ⟨t, h, Nat.le_refl _⟩
    | some p =>
      obtain ⟨c, hc, hsound, hpos⟩ := h.chains p (hin p rfl)
      obtain ⟨c', hc', hsound', -, -⟩ := hsound.delete hpos r.conf.id
      simp only [hc, hc', Option.bind_eq_bind, Option.bind_some] at hs
      split at hs
      · exact h.dropNode (hin p rfl) hfuel hs
      · rename_i hnums
        cases hs
        exact ⟨t, h.setChain hsound' (UInt16.pos_iff_ne_zero.mpr hnums), Nat.le_refl _⟩

theorem Table.Sound.step {op : Op} (h : s.Sound t) (hfuel : t.inorder.length < fuel)
    (hs : step fuel s op = some s') : ∃ t', s'.Sound t' ∧ t'.inorder.length ≤ t.inorder.length + 1 := by
  cases op with
  | insert r env =>
    obtain ⟨⟨rc, s₁⟩, hs₁, rfl⟩ := Option.map_eq_some_iff.mp hs
    exact h.insert hfuel hs₁
  | del r =>
    obtain ⟨⟨rc, s₁⟩, hs₁, rfl⟩ := Option.map_eq_some_iff.mp hs
    obtain ⟨t', h', hlen⟩ := h.del hfuel hs₁
    exact ⟨t', h', Nat.le_succ_of_le hlen⟩

theorem Table.Sound.run {ops : List Op} (h : s.Sound t) (hfuel : t.inorder.length + ops.length < fuel)
    (hs : ops.foldlM (Nodes.step fuel) s = some s') : ∃ t', s'.Sound t' := by
  induction ops generalizing s t with
  | nil =>
    cases hs
    exact ⟨t, h⟩
  | cons op ops ih =>
    rw [List.length_cons] at hfuel
    rw [List.foldlM_cons] at hs
    obtain ⟨s₁, hs₁, hrest⟩ := Option.bind_eq_some_iff.mp hs
    obtain ⟨t₁, h₁, hlen⟩ := h.step (by omega) hs₁
    exact ih h₁ (by omega) hrest

theorem alFilterInit_sound (sentinel : Ptr) : (alFilterInit sentinel).Sound .leaf :=
  ⟨holds_leaf rfl (beq_self_eq_true sentinel) rfl, ⟨rfl, 0, rfl⟩, fun _ ha => (List.not_mem_nil ha).elim⟩

theorem Reached.sound {sentinel : Ptr} {ops : List Op} (h : Reached sentinel ops s) : ∃ t, s.Sound t := by
  refine (alFilterInit_sound sentinel).run ?_ h
  rw [RedBlack.Tree.inorder, List.length_nil, Nat.zero_add]
  exact Nat.lt_succ_self _

end Steps

end Aware.Filter.Nodes
