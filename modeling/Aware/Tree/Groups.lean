import Aware.Tree.Delete
import Aware.Tree.Lookup
import Aware.Member.Group

/-!
# The group tree

`al_group_insert` and `al_group_delete` on the tree in memory. Along every run it is a red-black
tree of the groups that are loaded, and `al_rbtree_lookup` finds these and no others.
-/
namespace Aware.Tree
open RedBlack hiding Tree
open RedBlack.Tree (leaf)
open Member (alMakeKey alMakeKey_inj AlMemberNode MemberCluster AlMemberConf Groups initChain
  alGroupLoadMember)

/-- `al_member_node_t`, which begins at the colour of the node. -/
structure Entry where
  fid : UInt32
  gid : UInt32
  member : AlMemberNode

structure Table where
  mem : Mem
  entry : Ptr → Option Entry

structure Raw where
  key : UInt64
  child : Side → Ptr
  parent : Ptr
  red : Bool
  cluster : MemberCluster

structure Malloc where
  answer : (Ptr → Bool) → Option (Ptr × Raw)
  unused : ∀ live p raw, answer live = some (p, raw) → live p = false ∧ p ≠ null

def Mem.alloc (m : Mem) (p : Ptr) (raw : Raw) : Mem :=
  { m with
    live := fun a => if a = p then true else m.live a
    key := fun a => if a = p then raw.key else m.key a
    child := fun d a => if a = p then raw.child d else m.child d a
    parent := fun a => if a = p then raw.parent else m.parent a
    red := fun a => if a = p then raw.red else m.red a }

def Mem.free (m : Mem) (p : Ptr) : Mem :=
  { m with live := fun a => if a = p then false else m.live a }

def alMembersInit (sentinel : Ptr) : Table where
  mem :=
    { live := fun a => a == sentinel
      key := fun _ => 0
      child := fun _ _ => null
      parent := fun _ => null
      red := fun _ => false
      root := sentinel
      sentinel }
  entry := fun _ => none

/-- `al_group_insert` from `al_malloc` on. The pointer is that of the node when 0 is returned. -/
def insertNode (fuel : ℕ) (s : Table) (fid gid : UInt32) (sched : UInt8)
    (rows : List (AlMemberConf × Option MemberCluster)) (p : Ptr) (raw : Raw) :
    Option (Table × Option Ptr) := do
  let m ← (s.mem.alloc p raw).setKey p (alMakeKey fid gid)
  match alGroupLoadMember (initChain raw.cluster) rows with
  | none => pure ({ s with mem := m.free p }, none)
  | some chain =>
    let m ← alRbtreeInsert fuel p m
    pure (⟨m, fun q => if q = p then some ⟨fid, gid, ⟨sched, chain⟩⟩ else s.entry q⟩, some p)

def alGroupInsert (fuel : ℕ) (s : Table) (fid gid : UInt32) (sched : UInt8) (malloc : Malloc)
    (rows : List (AlMemberConf × Option MemberCluster)) : Option (Table × Option Ptr) := do
  match ← alRbtreeLookup fuel (alMakeKey fid gid) s.mem with
  | some _ => pure (s, none)
  | none =>
    match malloc.answer s.mem.live with
    | none => pure (s, none)
    | some (p, raw) => insertNode fuel s fid gid sched rows p raw

def alGroupDelete (fuel : ℕ) (s : Table) (fid gid : UInt32) : Option (Table × Bool) := do
  match ← alRbtreeLookup fuel (alMakeKey fid gid) s.mem with
  | none => pure (s, false)
  | some p =>
    let m ← alRbtreeDelete fuel p s.mem
    pure (⟨m.free p, fun q => if q = p then none else s.entry q⟩, true)

inductive Call where
  | insert (fid gid : UInt32) (sched : UInt8) (malloc : Malloc)
      (rows : List (AlMemberConf × Option MemberCluster))
  | delete (fid gid : UInt32)

inductive Event where
  | inserted (fid gid : UInt32) (node : Ptr)
  | deleted (fid gid : UInt32)
  | refused
  deriving DecidableEq

def call (fuel : ℕ) (s : Table) : Call → Option (Table × Event)
  | .insert fid gid sched malloc rows =>
    (alGroupInsert fuel s fid gid sched malloc rows).map fun r =>
      (r.1, (r.2.map (Event.inserted fid gid)).getD .refused)
  | .delete fid gid =>
    (alGroupDelete fuel s fid gid).map fun r => (r.1, if r.2 then .deleted fid gid else .refused)

def run (fuel : ℕ) : Table → List Call → Option (Table × List Event)
  | s, [] => some (s, [])
  | s, c :: calls => do
    let (s, event) ← call fuel s c
    let (s, events) ← run fuel s calls
    pure (s, event :: events)

abbrev Held := UInt32 → UInt32 → Option Ptr

def Held.note (held : Held) : Event → Held
  | .inserted fid gid p => fun f g => if f = fid ∧ g = gid then some p else held f g
  | .deleted fid gid => fun f g => if f = fid ∧ g = gid then none else held f g
  | .refused => held

def heldAfter (events : List Event) : Held :=
  events.foldl Held.note fun _ _ => none

structure Represents (s : Table) (t : Nodes) (held : Held) : Prop where
  sound : Sound s.mem t
  entries : ∀ p ∈ t.inorder, ∃ e, s.entry p = some e ∧ s.mem.key p = alMakeKey e.fid e.gid
  held : ∀ fid gid p, held fid gid = some p ↔ p ∈ t.inorder ∧ s.mem.key p = alMakeKey fid gid

section Steps
variable {s : Table} {t : Nodes} {held : Held} {fid gid : UInt32} {fuel : ℕ} {p : Ptr}

theorem Represents.lookup (h : Represents s t held) (fid gid : UInt32) (hfuel : t.inorder.length < fuel) :
    alRbtreeLookup fuel (alMakeKey fid gid) s.mem = some (held fid gid) := by
  have hplace : Holds s.mem (plug [] t) := h.sound.toHolds
  obtain ⟨found, hfound, hiff⟩ :=
    lookupFrom_eq (k := alMakeKey fid gid) hplace h.sound.ascending hfuel
  rw [alRbtreeLookup, h.sound.root, hfound]
  refine congrArg some (Option.ext fun q => ?_)
  exact (hiff q).trans (h.held fid gid q).symm

theorem Represents.outside {m : Mem} (h : Represents s t held) (hp : p ∉ t.inorder ∧ p ≠ s.mem.sentinel)
    (hroot : m.root = s.mem.root) (hs : m.sentinel = s.mem.sentinel)
    (hsame : ∀ a, a ≠ p → (SameNode s.mem m a ∧ m.live a = s.mem.live a) ∧ m.key a = s.mem.key a) :
    Represents { s with mem := m } t held := by
  have hkey : ∀ a ∈ t.inorder, m.key a = s.mem.key a :=
    fun a ha => (hsame a (ne_of_mem_of_not_mem ha hp.1)).2
  refine ⟨⟨h.sound.outside hp hroot hs fun a ha => (hsame a ha).1, h.sound.valid, h.sound.ascending.congr hkey⟩,
    fun q hq => ?_, fun f g q => ?_⟩
  · obtain ⟨e, he, hk⟩ := h.entries q hq
    exact ⟨e, he, (hkey q hq).trans hk⟩
  · rw [h.held]
    refine and_congr_right fun hq => ?_
    rw [hkey q hq]

def Mem.newNode (m : Mem) (p : Ptr) (raw : Raw) (k : UInt64) : Mem :=
  (m.alloc p raw).putKey p k

theorem newNode_same {m : Mem} {raw : Raw} {k : UInt64} {a : Ptr} (ha : a ≠ p) :
    (SameNode m (m.newNode p raw k) a ∧ (m.newNode p raw k).live a = m.live a) ∧
      (m.newNode p raw k).key a = m.key a := by
  simp [SameNode, Mem.newNode, Mem.alloc, Mem.putKey, ha]

theorem insertNode_represents (sched : UInt8) (rows : List (AlMemberConf × Option MemberCluster))
    (raw : Raw) (h : Represents s t held) (hp : s.mem.live p = false) (hnew : held fid gid = none)
    (hfuel : t.inorder.length < fuel) :
    ∃ s' r t', insertNode fuel s fid gid sched rows p raw = some (s', r) ∧
      Represents s' t' (held.note ((r.map (Event.inserted fid gid)).getD .refused)) ∧
      t'.inorder.length ≤ t.inorder.length + 1 := by
  have hout := h.sound.notMem hp
  have hset : (s.mem.alloc p raw).setKey p (alMakeKey fid gid) =
      some (s.mem.newNode p raw (alMakeKey fid gid)) := write_live _ _ (if_pos rfl)
  cases hload : alGroupLoadMember (initChain raw.cluster) rows with
  | none =>
    have hfree : Represents { s with mem := (s.mem.newNode p raw (alMakeKey fid gid)).free p } t held := by
      refine h.outside hout rfl rfl fun a ha => ?_
      obtain ⟨⟨hnode, hlive⟩, hkey⟩ := newNode_same (m := s.mem) ha
      exact ⟨⟨hnode, (if_neg ha).trans hlive⟩, hkey⟩
    refine ⟨_, none, t, and_then hset ?_, hfree, Nat.le_succ _⟩
    rw [hload]
    rfl
  | some chain =>
    have h₁ : Represents { s with mem := s.mem.newNode p raw (alMakeKey fid gid) } t held :=
      h.outside hout rfl rfl fun a ha => newNode_same ha
    have hkey : (s.mem.newNode p raw (alMakeKey fid gid)).key p = alMakeKey fid gid := if_pos rfl
    have hfresh : ∀ q ∈ t.inorder, (s.mem.newNode p raw (alMakeKey fid gid)).key q ≠
        (s.mem.newNode p raw (alMakeKey fid gid)).key p := by
      intro q hq heq
      have := (h₁.held fid gid q).mpr ⟨hq, heq.trans hkey⟩
      rw [hnew] at this
      cases this
    obtain ⟨m', t', hm', hk, h', hperm⟩ :=
      alRbtreeInsert_sound h₁.sound (if_pos rfl) hout.2 hout.1 hfresh hfuel
    have hmem : ∀ q, q ∈ t'.inorder ↔ q = p ∨ q ∈ t.inorder := by
      intro q
      rw [hperm.mem_iff, List.mem_cons]
    refine ⟨⟨m', fun q => if q = p then some ⟨fid, gid, ⟨sched, chain⟩⟩ else s.entry q⟩, some p, t',
      and_then hset ?_, ⟨h', fun q hq => ?_, fun f g q => ?_⟩, Nat.le_of_eq hperm.length_eq⟩
    · rw [hload]
      exact and_then hm' rfl
    · change ∃ e, (if q = p then some _ else s.entry q) = some e ∧ m'.key q = _
      rw [hk.key]
      by_cases hqp : q = p
      · rw [if_pos hqp, hqp]
        exact ⟨_, rfl, hkey⟩
      · rw [if_neg hqp]
        exact h₁.entries q (((hmem q).mp hq).resolve_left hqp)
    · change (if f = fid ∧ g = gid then some p else held f g) = some q ↔ _ ∧ m'.key q = _
      rw [hk.key, hmem]
      by_cases hpair : f = fid ∧ g = gid
      · obtain ⟨rfl, rfl⟩ := hpair
        rw [if_pos ⟨rfl, rfl⟩]
        constructor
        · intro heq
          cases heq
          exact ⟨.inl rfl, hkey⟩
        · rintro ⟨rfl | hq, hkq⟩
          · rfl
          · exact absurd (hkq.trans hkey.symm) (hfresh q hq)
      · rw [if_neg hpair, h₁.held]
        refine ⟨fun hq => ⟨.inr hq.1, hq.2⟩, fun hq => ⟨hq.1.resolve_left ?_, hq.2⟩⟩
        rintro rfl
        exact hpair (alMakeKey_inj.mp (hq.2.symm.trans hkey))

theorem alGroupInsert_represents (fid gid : UInt32) (sched : UInt8) (malloc : Malloc)
    (rows : List (AlMemberConf × Option MemberCluster)) (h : Represents s t held)
    (hfuel : t.inorder.length < fuel) :
    ∃ s' r t', alGroupInsert fuel s fid gid sched malloc rows = some (s', r) ∧
      Represents s' t' (held.note ((r.map (Event.inserted fid gid)).getD .refused)) ∧
      t'.inorder.length ≤ t.inorder.length + 1 := by
  have hlookup := h.lookup fid gid hfuel
  cases hheld : held fid gid with
  | some p =>
    rw [hheld] at hlookup
    exact ⟨s, none, t, and_then hlookup rfl, h, Nat.le_succ _⟩
  | none =>
    rw [hheld] at hlookup
    cases hmalloc : malloc.answer s.mem.live with
    | none =>
      refine ⟨s, none, t, and_then hlookup ?_, h, Nat.le_succ _⟩
      simp only [hmalloc]
      rfl
    | some block =>
      obtain ⟨s', r, t', hs', hrest⟩ := insertNode_represents sched rows block.2 h
        (malloc.unused _ _ _ hmalloc).1 hheld hfuel
      refine ⟨s', r, t', and_then hlookup ?_, hrest⟩
      simp only [hmalloc]
      exact hs'

theorem alGroupDelete_represents (fid gid : UInt32) (h : Represents s t held) (hfuel : t.inorder.length < fuel) :
    ∃ s' r t', alGroupDelete fuel s fid gid = some (s', r) ∧
      Represents s' t' (held.note (if r then .deleted fid gid else .refused)) ∧
      t'.inorder.length ≤ t.inorder.length := by
  have hlookup := h.lookup fid gid hfuel
  cases hheld : held fid gid with
  | none =>
    rw [hheld] at hlookup
    exact ⟨s, false, t, and_then hlookup rfl, h, Nat.le_refl _⟩
  | some p =>
    rw [hheld] at hlookup
    obtain ⟨hp, hkp⟩ := (h.held fid gid p).mp hheld
    obtain ⟨m', t', hm', hs, h', horder⟩ := alRbtreeDelete_sound h.sound hp (Nat.le_of_lt hfuel)
    have hmem : ∀ q, q ∈ t'.inorder ↔ q ≠ p ∧ q ∈ t.inorder := by
      intro q
      rw [horder]
      exact h.sound.nodup.mem_erase_iff
    have hps : p ≠ s.mem.sentinel := fun heq => h.sound.away (heq ▸ hp)
    have hout : p ∉ t'.inorder ∧ p ≠ m'.sentinel :=
      ⟨fun hp' => ((hmem p).mp hp').1 rfl, hs.sentinel ▸ hps⟩
    have hfree : Sound (m'.free p) t' :=
      ⟨h'.outside hout rfl rfl fun a ha => ⟨⟨fun _ => rfl, rfl, rfl⟩, if_neg ha⟩, h'.valid, h'.ascending⟩
    refine ⟨⟨m'.free p, fun q => if q = p then none else s.entry q⟩, true, t',
      and_then hlookup (and_then hm' rfl), ⟨hfree, fun q hq => ?_, fun f g q => ?_⟩, ?_⟩
    · obtain ⟨hqp, hq⟩ := (hmem q).mp hq
      change ∃ e, (if q = p then none else s.entry q) = some e ∧ m'.key q = _
      rw [if_neg hqp, hs.key q hqp]
      exact h.entries q hq
    · change (if f = fid ∧ g = gid then none else held f g) = some q ↔ _ ∧ m'.key q = _
      rw [hmem]
      by_cases hpair : f = fid ∧ g = gid
      · obtain ⟨rfl, rfl⟩ := hpair
        rw [if_pos ⟨rfl, rfl⟩]
        refine ⟨fun hq => (by cases hq), fun hq => ?_⟩
        obtain ⟨⟨hqp, hq⟩, hkq⟩ := hq
        rw [hs.key q hqp] at hkq
        exact absurd (h.sound.key_inj hq hp (hkq.trans hkp.symm)) hqp
      · rw [if_neg hpair, h.held]
        constructor
        · intro hq
          have hqp : q ≠ p := by
            rintro rfl
            exact hpair (alMakeKey_inj.mp (hq.2.symm.trans hkp))
          exact ⟨⟨hqp, hq.1⟩, (hs.key q hqp).trans hq.2⟩
        · rintro ⟨⟨hqp, hq⟩, hkq⟩
          rw [hs.key q hqp] at hkq
          exact ⟨hq, hkq⟩
    · rw [horder]
      exact List.length_erase_le

theorem call_represents (h : Represents s t held) (hfuel : t.inorder.length < fuel) (c : Call) :
    ∃ s' event t', call fuel s c = some (s', event) ∧ Represents s' t' (held.note event) ∧
      t'.inorder.length ≤ t.inorder.length + 1 := by
  cases c with
  | insert fid gid sched malloc rows =>
    obtain ⟨s', r, t', hs', hrest⟩ := alGroupInsert_represents fid gid sched malloc rows
      h hfuel
    refine ⟨s', _, t', ?_, hrest⟩
    rw [call, hs']
    rfl
  | delete fid gid =>
    obtain ⟨s', r, t', hs', hrest, hlen⟩ := alGroupDelete_represents fid gid h hfuel
    refine ⟨s', _, t', ?_, hrest, Nat.le_succ_of_le hlen⟩
    rw [call, hs']
    rfl

theorem run_represents (h : Represents s t held) (calls : List Call)
    (hfuel : t.inorder.length + calls.length < fuel) :
    ∃ s' events t', run fuel s calls = some (s', events) ∧
      Represents s' t' (events.foldl Held.note held) ∧
      t'.inorder.length ≤ t.inorder.length + calls.length := by
  induction calls generalizing s t held with
  | nil => exact ⟨s, [], t, rfl, h, Nat.le_refl _⟩
  | cons c calls ih =>
    rw [List.length_cons] at hfuel ⊢
    have hone : t.inorder.length < fuel := by omega
    obtain ⟨s₁, event, t₁, hs₁, h₁, hlen₁⟩ := call_represents h hone c
    obtain ⟨s', events, t', hs', h', hlen'⟩ := ih h₁ (by omega)
    refine ⟨s', event :: events, t', ?_, h', by omega⟩
    simp [run, hs₁, hs']

end Steps

theorem alMembersInit_represents (sentinel : Ptr) :
    Represents (alMembersInit sentinel) leaf fun _ _ => none := by
  have hempty : ∀ a, a ∉ (leaf : Nodes).inorder := fun a ha => (List.not_mem_nil ha).elim
  refine ⟨⟨holds_leaf rfl (beq_self_eq_true sentinel) rfl, ⟨rfl, 0, rfl⟩, List.Pairwise.nil⟩,
    fun a ha => absurd ha (hempty a), fun _ _ p => ?_⟩
  exact ⟨fun h => (by cases h), fun h => absurd h.1 (hempty p)⟩

def Models (s : Table) (held : Held) (g : Groups) : Prop :=
  ∀ fid gid, g (alMakeKey fid gid) = (held fid gid).bind fun p => (s.entry p).map Entry.member

def mapCall (live : Ptr → Bool) (g : Groups) : Call → Groups
  | .insert fid gid sched malloc rows =>
    (Member.alGroupInsert g fid gid sched ((malloc.answer live).map fun b => b.2.cluster) rows).getD g
  | .delete fid gid => (Member.alGroupDelete g fid gid).getD g

def mapRun (fuel : ℕ) : Table → Groups → List Call → Groups
  | _, g, [] => g
  | s, g, c :: calls =>
    ((call fuel s c).map fun r => mapRun fuel r.1 (mapCall s.mem.live g c) calls).getD g

section Map
variable {s s' : Table} {t : Nodes} {held : Held} {g : Groups} {fid gid : UInt32} {fuel : ℕ} {event : Event}

theorem Models.loaded {p : Ptr} (hg : Models s held g) (h : Represents s t held)
    (hp : held fid gid = some p) : ∃ mn, g (alMakeKey fid gid) = some mn := by
  obtain ⟨e, he, -⟩ := h.entries p ((h.held fid gid p).mp hp).1
  refine ⟨e.member, (hg fid gid).trans ?_⟩
  rw [hp, Option.bind_some, he]
  rfl

theorem Models.unloaded (hg : Models s held g) (hp : held fid gid = none) :
    g (alMakeKey fid gid) = none := by
  rw [hg, hp]
  rfl

theorem Models.set {m : Mem} {p : Ptr} {v : Option Entry} {held' : Held} (hg : Models s held g)
    (hpair : (held' fid gid).bind (fun q => (if q = p then v else s.entry q).map Entry.member) =
      v.map Entry.member)
    (hrest : ∀ f g, ¬(f = fid ∧ g = gid) → held' f g = held f g ∧ held f g ≠ some p) :
    Models ⟨m, fun q => if q = p then v else s.entry q⟩ held'
      (g.set (alMakeKey fid gid) (v.map Entry.member)) := by
  intro f k
  by_cases heq : f = fid ∧ k = gid
  · obtain ⟨rfl, rfl⟩ := heq
    rw [Groups.set_self]
    exact hpair.symm
  · obtain ⟨hheld, hne⟩ := hrest f k heq
    rw [Groups.set_of_ne _ (mt alMakeKey_inj.mp heq), hg, hheld]
    cases hq : held f k with
    | none => rfl
    | some q =>
      have hqp : q ≠ p := fun h => hne (h ▸ hq)
      simp only [Option.bind_some, if_neg hqp]

theorem call_models (h : Represents s t held) (hg : Models s held g) (hfuel : t.inorder.length < fuel)
    {c : Call} (hc : call fuel s c = some (s', event)) :
    Models s' (held.note event) (mapCall s.mem.live g c) := by
  cases c with
  | insert fid gid sched malloc rows =>
    have hlookup := h.lookup fid gid hfuel
    obtain ⟨⟨s₁, r⟩, hr, heq⟩ := Option.map_eq_some_iff.mp hc
    cases heq
    rw [mapCall, Member.alGroupInsert.eq_def]
    rw [alGroupInsert, hlookup] at hr
    cases hheld : held fid gid with
    | some p =>
      obtain ⟨mn, hmn⟩ := hg.loaded h hheld
      rw [hheld] at hr
      cases hr
      rw [hmn]
      exact hg
    | none =>
      rw [hg.unloaded hheld]
      simp only [hheld, Option.bind_eq_bind, Option.bind_some] at hr
      cases hmalloc : malloc.answer s.mem.live with
      | none =>
        rw [hmalloc] at hr
        cases hr
        exact hg
      | some block =>
        have hout := (h.sound.notMem (malloc.unused _ _ _ hmalloc).1).1
        simp only [hmalloc, insertNode, Option.bind_eq_bind] at hr
        obtain ⟨m₁, -, hr⟩ := Option.bind_eq_some_iff.mp hr
        simp only [Option.map_some]
        cases hload : alGroupLoadMember (initChain block.2.cluster) rows with
        | none =>
          rw [hload] at hr
          cases hr
          exact hg
        | some chain =>
          rw [hload] at hr
          obtain ⟨m₂, -, hr⟩ := Option.bind_eq_some_iff.mp hr
          cases hr
          refine Models.set (v := some ⟨fid, gid, ⟨sched, chain⟩⟩) hg ?_ fun f k hne => ⟨?_, ?_⟩
          · simp [Held.note]
          · exact if_neg hne
          · intro hp
            exact hout ((h.held f k _).mp hp).1
  | delete fid gid =>
    have hlookup := h.lookup fid gid hfuel
    obtain ⟨⟨s₁, r⟩, hr, heq⟩ := Option.map_eq_some_iff.mp hc
    cases heq
    rw [mapCall, Member.alGroupDelete]
    rw [alGroupDelete, hlookup] at hr
    cases hheld : held fid gid with
    | none =>
      rw [hheld] at hr
      cases hr
      rw [hg.unloaded hheld]
      exact hg
    | some p =>
      obtain ⟨mn, hmn⟩ := hg.loaded h hheld
      simp only [hheld, Option.bind_eq_bind, Option.bind_some] at hr
      obtain ⟨m₁, -, hr⟩ := Option.bind_eq_some_iff.mp hr
      cases hr
      rw [hmn]
      refine Models.set (v := none) hg ?_ fun f k hne => ⟨?_, ?_⟩
      · simp [Held.note]
      · exact if_neg hne
      · intro hp
        have hkey := ((h.held f k p).mp hp).2.symm.trans ((h.held fid gid p).mp hheld).2
        exact hne (alMakeKey_inj.mp hkey)

theorem run_models {calls : List Call} {events : List Event} (h : Represents s t held)
    (hg : Models s held g) (hfuel : t.inorder.length + calls.length < fuel)
    (hs : run fuel s calls = some (s', events)) :
    Models s' (events.foldl Held.note held) (mapRun fuel s g calls) := by
  induction calls generalizing s t held g events with
  | nil =>
    cases hs
    exact hg
  | cons c calls ih =>
    rw [List.length_cons] at hfuel
    have hone : t.inorder.length < fuel := by omega
    obtain ⟨s₁, event, t₁, hs₁, h₁, hlen⟩ := call_represents h hone c
    simp only [run, hs₁, Option.bind_eq_bind, Option.bind_some] at hs
    obtain ⟨⟨s₂, rest⟩, hrest, heq⟩ := Option.bind_eq_some_iff.mp hs
    cases heq
    simp only [mapRun, hs₁, Option.map_some, Option.getD_some, List.foldl_cons]
    exact ih h₁ (call_models h hg hone hs₁) (by omega) hrest

end Map

/-- After any calls the tree is a red-black tree, and a lookup finds the node that was inserted
for the pair and not deleted since, if any. -/
theorem group_tree_sound (sentinel : Ptr) (calls : List Call) (fuel : ℕ) (hfuel : calls.length < fuel) :
    ∃ s events t, run fuel (alMembersInit sentinel) calls = some (s, events) ∧ Sound s.mem t ∧
      (∀ p ∈ t.inorder, ∃ e, s.entry p = some e ∧ s.mem.key p = alMakeKey e.fid e.gid) ∧
      ∀ fid gid, alRbtreeLookup fuel (alMakeKey fid gid) s.mem = some (heldAfter events fid gid) ∧
        ∀ p, heldAfter events fid gid = some p → ∃ e, s.entry p = some e ∧ e.fid = fid ∧ e.gid = gid := by
  have hinit : (leaf : Nodes).inorder.length + calls.length < fuel := by
    rw [RedBlack.Tree.inorder, List.length_nil, Nat.zero_add]
    exact hfuel
  obtain ⟨s, events, t, hrun, h, hlen⟩ :=
    run_represents (alMembersInit_represents sentinel) calls hinit
  refine ⟨s, events, t, hrun, h.sound, h.entries, fun fid gid => ⟨h.lookup fid gid (by omega), ?_⟩⟩
  intro p hp
  obtain ⟨hmem, hkey⟩ := (h.held fid gid p).mp hp
  obtain ⟨e, he, hkey'⟩ := h.entries p hmem
  exact ⟨e, he, alMakeKey_inj.mp (hkey'.symm.trans hkey)⟩

/-- After any calls the tree in memory has for every pair the group that the map has. -/
theorem group_tree_refines_map (sentinel : Ptr) (calls : List Call) :
    ∃ s events, run (calls.length + 1) (alMembersInit sentinel) calls = some (s, events) ∧
      ∀ fid gid, (alRbtreeLookup (calls.length + 1) (alMakeKey fid gid) s.mem).map
          (fun found => found.bind fun p => (s.entry p).map Entry.member) =
        some (mapRun (calls.length + 1) (alMembersInit sentinel) (fun _ => none) calls
          (alMakeKey fid gid)) := by
  have hinit := alMembersInit_represents sentinel
  have hfuel : (leaf : Nodes).inorder.length + calls.length < calls.length + 1 := by
    simp [RedBlack.Tree.inorder]
  obtain ⟨s, events, t, hrun, h, hlen⟩ := run_represents hinit calls hfuel
  have hmodels := run_models hinit (g := fun _ => none) (fun _ _ => rfl) hfuel hrun
  refine ⟨s, events, hrun, fun fid gid => ?_⟩
  rw [h.lookup fid gid (by omega), Option.map_some, hmodels fid gid]

def firstFree : Malloc where
  answer live := ((List.range 16).find? fun p => p != null && !live p).map fun p =>
    (p, ⟨0, fun _ => null, null, false, Member.zeroCluster⟩)
  unused live p raw h := by
    obtain ⟨q, hq, heq⟩ := Option.map_eq_some_iff.mp h
    cases heq
    simpa [and_comm] using List.find?_some hq

def sampleCalls : List Call :=
  [.insert 1 7 0 firstFree [], .insert 2 7 0 firstFree [], .insert 1 8 0 firstFree [],
    .delete 2 7, .insert 1 7 0 firstFree []]

theorem group_tree_sound_sample : sampleCalls.length < 6 ∧
    ∃ s events t, run 6 (alMembersInit 1) sampleCalls = some (s, events) ∧ Sound s.mem t ∧
      (∀ p ∈ t.inorder, ∃ e, s.entry p = some e ∧ s.mem.key p = alMakeKey e.fid e.gid) ∧
      ∀ fid gid, alRbtreeLookup 6 (alMakeKey fid gid) s.mem = some (heldAfter events fid gid) ∧
        ∀ p, heldAfter events fid gid = some p → ∃ e, s.entry p = some e ∧ e.fid = fid ∧ e.gid = gid :=
  ⟨by decide, group_tree_sound 1 sampleCalls 6 (by decide)⟩

end Aware.Tree
