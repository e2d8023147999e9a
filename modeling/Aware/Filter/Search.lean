import Aware.Filter.Store
import Aware.Lib.Keyed

/-!
# What a search finds

The live filters of every prefix are written down beside the tables. A search is to look at the
longest prefix with a live filter and at no other.
-/
namespace Aware.Filter
open Function Aware.BitStrings Aware.Radix

structure Prefix where
  family : Family
  key : BitVec family.width
  len : ℕ
deriving DecidableEq, Repr

def Request.target (r : Request) : Prefix :=
  ⟨r.family, r.addr &&& r.mask.bits, r.mask.len⟩

abbrev Config :=
  Prefix → List FilterConf

def Config.add (cfg : Config) (r : Request) : Config :=
  update cfg r.target (r.conf :: cfg r.target)

def Config.remove (cfg : Config) (r : Request) : Config :=
  update cfg r.target ((cfg r.target).filter fun c => c.id != r.conf.id)

def Config.apply (cfg : Config) (rc : Int) : Op → Config
  | .insert r _ => if rc = 0 then cfg.add r else cfg
  | .del r => cfg.remove r

def Config.live (cfg : Config) (f : Family) : PrefixMap f.width (List FilterConf) :=
  fun k n => if cfg ⟨f, k, n⟩ = [] then none else some (cfg ⟨f, k, n⟩)

def FilterConf.serves (port : UInt16) (proto : UInt8) (c : FilterConf) : Bool :=
  htons c.port == port && (c.proto == proto || c.proto == ipprotoIp)

def FilterConf.fargs (c : FilterConf) : AlFargs :=
  ⟨c.id, c.gid, c.filterType⟩

/-- The longest live prefix alone decides. -/
def SearchRule (cfg : Config) (f : Family) (dst : BitVec f.width) (port : UInt16)
    (proto : UInt8) : Option (Option AlFargs) → Prop
  | none => False
  | some none => (cfg.live f).Uncovered dst ∨
      ∃ rows, (cfg.live f).Best dst rows ∧ ∀ c ∈ rows, c.serves port proto = false
  | some (some fargs) => ∃ rows, (cfg.live f).Best dst rows ∧
      ∃ c ∈ rows, c.serves port proto = true ∧ fargs = c.fargs

abbrev State :=
  Filters × Config

def start : State :=
  (alFilterInit, fun _ => [])

def track (st : State) (op : Op) : Option State :=
  (applyOp st.1 op).map fun r => (r.2, st.2.apply r.1 op)

def Request.Masked (r : Request) : Prop :=
  r.addr &&& r.mask.bits = r.addr

def Env.Ample (env : Env) : Prop :=
  env.load = 0 ∧ env.calloc = true ∧ env.node.isSome = true ∧ env.fresh.isSome = true

instance (env : Env) : Decidable env.Ample :=
  inferInstanceAs (Decidable (_ ∧ _))

/-- What a call has to meet: a masked address, and for an insertion a new id and an index that
does not come round to `0`. -/
def Guard (st : State) : Op → Prop
  | .insert r env =>
    env.Ample ∧ r.Masked ∧ st.1.index + 1 ≠ 0 ∧ ∀ c ∈ st.2 r.target, c.id ≠ r.conf.id
  | .del r =>
    r.Masked ∧ ∀ c ∈ st.1.chains (alFilterRadixLookup st.1 r), c.nums = 1 →
      (st.2 r.target).length ≤ 1

instance (r : Request) : Decidable r.Masked :=
  inferInstanceAs (Decidable (_ = _))

instance (st : State) : (op : Op) → Decidable (Guard st op)
  | .insert .. => inferInstanceAs (Decidable (_ ∧ _ ∧ _ ∧ _))
  | .del _ => inferInstanceAs (Decidable (_ ∧ _))

section Carries
variable {c : AlFilterChain} {rows : List FilterConf}

structure Carries (c : AlFilterChain) (rows : List FilterConf) : Prop where
  sound : c.Sound
  nums : 0 < c.nums
  filters : c.filters.Perm (rows.map alSetFilter)
  ids : (rows.map FilterConf.id).Nodup

theorem Carries.ne_nil (h : Carries c rows) : rows ≠ [] := by
  rintro rfl
  have hnone : c.filters = [] := List.perm_nil.mp h.filters
  have hcount : c.inl.m.countP AlFilter.isUsed = 0 := by
    rw [AlFilterChain.filters, List.filter_append, List.append_eq_nil_iff] at hnone
    rw [List.countP_eq_length_filter, hnone.1, List.length_nil]
  have hcnt := UInt16.le_iff_toNat_le.mp h.sound.nums
  have hpos := UInt16.lt_iff_toNat_lt.mp h.nums
  rw [h.sound.exact, hcount] at hcnt
  exact absurd hpos (by simpa using hcnt)

theorem Carries.add (h : Carries c rows) {conf : FilterConf} (hnew : ∀ r ∈ rows, r.id ≠ conf.id)
    (mem : FilterCluster) :
    ∃ c', alFilterAdd c conf 0 (some mem) = (0, c') ∧ Carries c' (conf :: rows) := by
  obtain ⟨c', hadd, hsound, hperm, hpos⟩ := h.sound.add conf mem
  refine ⟨c', hadd, hsound, hpos (.inl h.nums), ?_, ?_⟩
  · rw [List.map_cons]
    exact hperm.trans (h.filters.cons _)
  · rw [List.map_cons, List.nodup_cons]
    exact ⟨by simpa using hnew, h.ids⟩

theorem carries_new (conf : FilterConf) (node mem : FilterCluster) :
    ∃ c', alFilterAdd (newChain node) conf 0 (some mem) = (0, c') ∧ Carries c' [conf] := by
  obtain ⟨c', hadd, hsound, hperm, hpos⟩ := (newChain_sound node).add conf mem
  rw [newChain_filters] at hperm
  exact ⟨c', hadd, hsound, hpos (.inr (newChain_firstFree node)), hperm, by simp⟩

theorem Carries.nodup (h : Carries c rows) : (c.filters.map AlFilter.fid).Nodup := by
  refine (h.filters.map AlFilter.fid).nodup_iff.mpr ?_
  rw [List.map_map]
  exact h.ids

theorem Carries.perm_filter (h : Carries c rows) (fid : UInt32) :
    (c.filters.filter fun m => m.fid != fid).Perm
      ((rows.filter fun r => r.id != fid).map alSetFilter) := by
  have hperm := h.filters.filter fun m => m.fid != fid
  rwa [List.filter_map] at hperm

theorem Carries.delete (h : Carries c rows) (fid : UInt32)
    (hone : c.nums = 1 → rows.length ≤ 1) :
    ∃ found c', alFilterDelete c fid = some (found, c') ∧
      if c'.nums = 0 then rows.filter (fun r => r.id != fid) = []
      else Carries c' (rows.filter fun r => r.id != fid) := by
  obtain ⟨c', hdel, hsound, hfilters, hnums⟩ := h.sound.delete h.nums fid
  have hperm : c'.filters.Perm ((rows.filter fun r => r.id != fid).map alSetFilter) := by
    rw [hfilters, Keyed.eraseP_eq_filter h.nodup]
    exact h.perm_filter fid
  refine ⟨_, c', hdel, ?_⟩
  split
  · rename_i hzero
    cases hfound : (c.filters.find? fun m => m.fid == fid).isSome with
    | false =>
      rw [hfound, if_neg Bool.false_ne_true] at hnums
      exact absurd (hnums ▸ hzero) (UInt16.pos_iff_ne_zero.mp h.nums)
    | true =>
      rw [hfound, if_pos rfl] at hnums
      have hnum : c.nums = 1 := by
        rwa [hnums, UInt16.sub_eq_iff_eq_add, UInt16.zero_add] at hzero
      obtain ⟨m, hm⟩ := Option.isSome_iff_exists.mp hfound
      have hlen := hperm.length_eq
      rw [hfilters, List.length_eraseP_of_mem (List.mem_of_find?_eq_some hm) (List.find?_some hm),
        h.filters.length_eq, List.length_map, List.length_map] at hlen
      have hrows := hone hnum
      exact List.length_eq_zero_iff.mp (by omega)
  · rename_i hne
    exact ⟨hsound, UInt16.pos_iff_ne_zero.mpr hne, hperm, h.ids.sublist (List.filter_sublist.map _)⟩

theorem Carries.lookup (h : Carries c rows) (port : UInt16) (proto : UInt8) :
    match (c.filters.find? (AlFilter.matches port proto)).map AlFilter.fargs with
    | none => ∀ r ∈ rows, r.serves port proto = false
    | some fargs => ∃ r ∈ rows, r.serves port proto = true ∧ fargs = r.fargs := by
  have hmem : ∀ m, m ∈ c.filters ↔ ∃ r ∈ rows, alSetFilter r = m := by
    intro m
    rw [h.filters.mem_iff, List.mem_map]
  cases hfind : c.filters.find? (AlFilter.matches port proto) with
  | none =>
    intro r hr
    have hnot := List.find?_eq_none.mp hfind (alSetFilter r) ((hmem _).mpr ⟨r, hr, rfl⟩)
    exact Bool.eq_false_iff.mpr hnot
  | some m =>
    obtain ⟨r, hr, rfl⟩ := (hmem m).mp (List.mem_of_find?_eq_some hfind)
    have hserves : AlFilter.matches port proto (alSetFilter r) = true := List.find?_some hfind
    exact ⟨r, hr, hserves, rfl⟩

end Carries

section Indexed
variable {s : Filters} {cfg : Config} {idx : Prefix → Option UInt32} {r : Request}

def indexMap (idx : Prefix → Option UInt32) (f : Family) : PrefixMap f.width UInt32 :=
  fun k n => idx ⟨f, k, n⟩

/-- Every prefix in the trees has an index of its own, and the chain of the index carries its
live filters; no other prefix has live filters. -/
structure Indexed (s : Filters) (cfg : Config) (idx : Prefix → Option UInt32) : Prop where
  trees : ∀ f, Represents (s.tree f) (indexMap idx f)
  chain : ∀ p i, idx p = some i → ∃ c, s.chains i = some c ∧ Carries c (cfg p)
  bare : ∀ p, idx p = none → cfg p = []
  bound : ∀ p i, idx p = some i → i ≠ 0 ∧ i.toNat ≤ s.index.toNat
  inj : ∀ p q i, idx p = some i → idx q = some i → p = q

variable {i : UInt32} {f : Family} {n : ℕ} {k : BitVec f.width} {t : Tree f.width UInt32}

theorem toNat_add_one (h : i + 1 ≠ 0) : (i + 1).toNat = i.toNat + 1 := by
  have hlt := i.toNat_lt
  rw [ne_eq, ← UInt32.toNat_inj, UInt32.toNat_add, UInt32.toNat_one, UInt32.toNat_zero] at h
  rw [UInt32.toNat_add, UInt32.toNat_one]
  omega

theorem indexMap_update (k : BitVec f.width) (n : ℕ) (d : Option UInt32) :
    indexMap (update idx ⟨f, k, n⟩ d) f = (indexMap idx f).set k n d := by
  funext k' n'
  rw [indexMap, update_apply, PrefixMap.set]
  simp only [Prefix.mk.injEq, heq_eq_eq, true_and]
  rfl

theorem indexMap_update_of_ne {p : Prefix} (hf : f ≠ p.family) (d : Option UInt32) :
    indexMap (update idx p d) f = indexMap idx f := by
  funext k n
  exact update_of_ne (fun heq => hf (congrArg Prefix.family heq)) _ _

theorem Request.Masked.target_eq (h : r.Masked) : r.target = ⟨r.family, r.addr, r.mask.len⟩ := by
  rw [Request.target, h]

theorem Request.Masked.fresh (h : r.Masked) : Fresh r.addr r.mask.len := by
  have hf := fresh_mask r.addr r.mask
  rwa [h] at hf

variable (h : Indexed s cfg idx)
include h

theorem Indexed.trees_update {d : Option UInt32} (ht : Represents t ((indexMap idx f).set k n d)) :
    ∀ f', Represents (update s.tree f t f')
      (indexMap (update idx ⟨f, k, n⟩ d) f') := by
  intro f'
  rcases eq_or_ne f' f with rfl | hf
  · rwa [update_self, indexMap_update]
  · rw [update_of_ne hf, indexMap_update_of_ne hf]
    exact h.trees f'

theorem Indexed.rechain {p : Prefix} (hp : idx p = some i)
    {c : AlFilterChain} {rows : List FilterConf} (hc : Carries c rows) :
    Indexed { s with chains := update s.chains i (some c) }
      (update cfg p rows) idx where
  trees := h.trees
  chain := by
    intro q j hq
    rcases eq_or_ne q p with rfl | hqp
    · cases hp.symm.trans hq
      exact ⟨c, update_self _ _ _, by rwa [update_self]⟩
    · have hji : j ≠ i := fun heq => hqp (h.inj q p j hq (heq ▸ hp))
      obtain ⟨d, hd, hcarries⟩ := h.chain q j hq
      exact ⟨d, (update_of_ne hji _ _).trans hd, by rwa [update_of_ne hqp]⟩
  bare := by
    intro q hq
    have hqp : q ≠ p := fun heq => by simp [heq, hp] at hq
    rw [update_of_ne hqp]
    exact h.bare q hq
  bound := h.bound
  inj := h.inj

theorem Indexed.extend (hi : s.index + 1 ≠ 0)
    (ht : Represents t ((indexMap idx f).set k n (some (s.index + 1)))) {c : AlFilterChain}
    {rows : List FilterConf} (hc : Carries c rows) :
    Indexed ⟨update s.tree f t, update s.chains (s.index + 1) (some c),
        s.index + 1⟩ (update cfg ⟨f, k, n⟩ rows)
      (update idx ⟨f, k, n⟩ (some (s.index + 1))) := by
  have hnext := toNat_add_one hi
  have hold : ∀ q i, idx q = some i → i ≠ s.index + 1 := by
    intro q i hq heq
    have := (h.bound q i hq).2
    rw [heq, hnext] at this
    omega
  refine ⟨h.trees_update ht, ?_, ?_, ?_, ?_⟩
  · intro q j hq
    rcases eq_or_ne q ⟨f, k, n⟩ with rfl | hqp
    · rw [update_self] at hq
      cases hq
      exact ⟨c, update_self _ _ _, by rwa [update_self]⟩
    · rw [update_of_ne hqp] at hq ⊢
      obtain ⟨d, hd, hcarries⟩ := h.chain q j hq
      exact ⟨d, (update_of_ne (hold q j hq) _ _).trans hd, hcarries⟩
  · intro q hq
    rcases eq_or_ne q ⟨f, k, n⟩ with rfl | hqp
    · rw [update_self] at hq
      cases hq
    · rw [update_of_ne hqp] at hq ⊢
      exact h.bare q hq
  · intro q j hq
    rcases eq_or_ne q ⟨f, k, n⟩ with rfl | hqp
    · rw [update_self] at hq
      cases hq
      exact ⟨hi, le_rfl⟩
    · rw [update_of_ne hqp] at hq
      have hbound := h.bound q j hq
      exact ⟨hbound.1, by rw [hnext]; omega⟩
  · intro q q' j hq hq'
    rcases eq_or_ne q ⟨f, k, n⟩ with rfl | hqp <;> rcases eq_or_ne q' ⟨f, k, n⟩ with rfl | hqp'
    · rfl
    · rw [update_self] at hq
      rw [update_of_ne hqp'] at hq'
      cases hq
      exact absurd rfl (hold q' _ hq')
    · rw [update_self] at hq'
      rw [update_of_ne hqp] at hq
      cases hq'
      exact absurd rfl (hold q _ hq)
    · rw [update_of_ne hqp] at hq
      rw [update_of_ne hqp'] at hq'
      exact h.inj q q' j hq hq'

theorem Indexed.shrink (hp : idx ⟨f, k, n⟩ = some i)
    (ht : Represents t ((indexMap idx f).set k n none)) :
    Indexed { s with
        tree := update s.tree f t
        chains := update s.chains i none }
      (update cfg ⟨f, k, n⟩ []) (update idx ⟨f, k, n⟩ none) := by
  have hother : ∀ q j, update idx ⟨f, k, n⟩ none q = some j → q ≠ ⟨f, k, n⟩ ∧ idx q = some j := by
    intro q j hq
    rcases eq_or_ne q ⟨f, k, n⟩ with rfl | hqp
    · rw [update_self] at hq
      cases hq
    · rw [update_of_ne hqp] at hq
      exact ⟨hqp, hq⟩
  refine ⟨h.trees_update ht, ?_, ?_, ?_, ?_⟩
  · intro q j hq
    obtain ⟨hqp, hq⟩ := hother q j hq
    have hji : j ≠ i := fun heq => hqp (h.inj q _ j hq (heq ▸ hp))
    obtain ⟨d, hd, hcarries⟩ := h.chain q j hq
    exact ⟨d, (update_of_ne hji _ _).trans hd, by rwa [update_of_ne hqp]⟩
  · intro q hq
    rcases eq_or_ne q ⟨f, k, n⟩ with rfl | hqp
    · exact update_self _ _ _
    · rw [update_of_ne hqp] at hq ⊢
      exact h.bare q hq
  · intro q j hq
    exact h.bound q j (hother q j hq).2
  · intro q q' j hq hq'
    exact h.inj q q' j (hother q j hq).2 (hother q' j hq').2

theorem Indexed.live_eq : cfg.live f k n = (indexMap idx f k n).map fun _ => cfg ⟨f, k, n⟩ := by
  rw [Config.live, indexMap]
  cases hp : idx ⟨f, k, n⟩ with
  | none => rw [h.bare _ hp, if_pos rfl, Option.map_none]
  | some i =>
    obtain ⟨c, -, hc⟩ := h.chain _ i hp
    rw [if_neg hc.ne_nil, Option.map_some]

theorem Indexed.search {dst : BitVec f.width}
    (hdst : dst ≠ BitVec.allOnes f.width) (port : UInt16) (proto : UInt8) :
    SearchRule cfg f dst port proto (alFilterSearch s f dst port proto) := by
  have hspec := (h.trees f).rnMatch hdst
  have hlive : ∀ k n rows, cfg.live f k n = some rows →
      ∃ i, indexMap idx f k n = some i ∧ cfg ⟨f, k, n⟩ = rows := by
    intro k n rows hrows
    rwa [h.live_eq, Option.map_eq_some_iff] at hrows
  rw [alFilterSearch]
  cases hmatch : rnMatch dst (s.tree f) with
  | none =>
    rw [hmatch] at hspec
    refine .inl fun k n rows hrows => ?_
    obtain ⟨i, hi, -⟩ := hlive k n rows hrows
    exact hspec k n i hi
  | some l =>
    rw [hmatch] at hspec
    obtain ⟨k, n, hi, hcover, hlong⟩ := hspec
    obtain ⟨c, hc, hcarries⟩ := h.chain ⟨f, k, n⟩ l.data hi
    have hbest : (cfg.live f).Best dst (cfg ⟨f, k, n⟩) := by
      refine ⟨k, n, by rw [h.live_eq, hi, Option.map_some], hcover, ?_⟩
      intro k' n' rows hrows hcover'
      obtain ⟨i', hi', -⟩ := hlive k' n' rows hrows
      exact hlong k' n' i' hi' hcover'
    have hlookup := hcarries.lookup port proto
    simp only [hc, hcarries.sound.lookup, Option.map_some]
    cases hfound : (c.filters.find? (AlFilter.matches port proto)).map AlFilter.fargs with
    | none =>
      rw [hfound] at hlookup
      exact .inr ⟨_, hbest, hlookup⟩
    | some fargs =>
      rw [hfound] at hlookup
      exact ⟨_, hbest, hlookup⟩

theorem Indexed.found {dst : BitVec f.width} {port : UInt16}
    {proto : UInt8} {fargs : AlFargs} (hf : alFilterSearch s f dst port proto = some (some fargs)) :
    ∃ p, ∃ c ∈ cfg p, fargs = c.fargs := by
  rw [alFilterSearch] at hf
  cases hmatch : rnMatch dst (s.tree f) with
  | none =>
    rw [hmatch] at hf
    cases hf
  | some l =>
    have hidx := ((h.trees f).entry _ _).symm.trans ((h.trees f).valid.rnMatch_some hmatch).1
    obtain ⟨c, hc, hcarries⟩ := h.chain ⟨f, l.key, l.len⟩ l.data hidx
    have hlookup := hcarries.lookup port proto
    simp only [hmatch, hc, hcarries.sound.lookup, Option.map_some, Option.some.injEq] at hf
    rw [hf] at hlookup
    obtain ⟨r, hr, -, hfargs⟩ := hlookup
    exact ⟨_, r, hr, hfargs⟩

theorem Indexed.same (hm : r.Masked)
    (hsame : alFilterSame s r = some i) : idx r.target = some i := by
  rw [alFilterSame_eq, Option.map_eq_some_iff] at hsame
  obtain ⟨l, hl, rfl⟩ := hsame
  obtain ⟨hmatch, hlen⟩ := Option.filter_eq_some_iff.mp hl
  have hlen : l.len = r.mask.len := by simpa using hlen
  obtain ⟨hentry, hagree, -⟩ := (h.trees r.family).valid.rnMatch_some hmatch
  have hkey : r.addr = l.key :=
    hagree.eq_of_clean (hlen ▸ hm.fresh.clean) ((h.trees r.family).valid.fresh _ _ _ hentry).clean
  have hidx := ((h.trees r.family).entry _ _).symm.trans hentry
  rw [hlen, ← hkey] at hidx
  rw [hm.target_eq]
  exact hidx

theorem Indexed.insert (hm : r.Masked) (hi : s.index + 1 ≠ 0)
    (hnew : ∀ c ∈ cfg r.target, c.id ≠ r.conf.id) {env : Env} (henv : env.Ample) :
    ∃ rc s', alFilterInsert s r env = some (rc, s') ∧
      ∃ idx', Indexed s' (if rc = 0 then cfg.add r else cfg) idx' := by
  obtain ⟨load, calloc, node, fresh⟩ := env
  obtain ⟨rfl, rfl, hnode, hfresh⟩ := henv
  obtain ⟨node, rfl⟩ := Option.isSome_iff_exists.mp hnode
  obtain ⟨fresh, rfl⟩ := Option.isSome_iff_exists.mp hfresh
  simp only [alFilterInsert]
  cases hsame : alFilterSame s r with
  | some i =>
    have hidx := h.same hm hsame
    obtain ⟨c, hc, hcarries⟩ := h.chain _ i hidx
    obtain ⟨c', hadd, hcarries'⟩ := hcarries.add hnew fresh
    simp only [hc, hadd]
    exact ⟨0, _, rfl, idx, h.rechain hidx hcarries'⟩
  | none =>
    have hspec := (h.trees r.family).rnAddroute hm.fresh (s.index + 1)
    obtain ⟨c', hadd, hcarries⟩ := carries_new r.conf node fresh
    simp only [alFilterRadixInsert, if_true]
    cases hroute : rnAddroute r.addr r.mask.len (s.index + 1) (s.tree r.family) with
    | none =>
      refine ⟨-1, _, rfl, idx, { h with bound := fun p i hp => ?_ }⟩
      have hbound := h.bound p i hp
      exact ⟨hbound.1, by simp only [toNat_add_one hi]; omega⟩
    | some t =>
      rw [hroute] at hspec
      have hbare : cfg r.target = [] := h.bare _ (by rw [hm.target_eq]; exact hspec.1)
      simp only [hi, if_false, hadd, if_true]
      refine ⟨0, _, rfl,
        update idx ⟨r.family, r.addr, r.mask.len⟩ (some (s.index + 1)), ?_⟩
      rw [if_pos rfl, Config.add, hbare, hm.target_eq]
      exact h.extend hi hspec.2 hcarries

theorem Indexed.radixLookup (hm : r.Masked) :
    alFilterRadixLookup s r = (idx r.target).getD 0 := by
  rw [alFilterRadixLookup, (h.trees r.family).rnLookup hm.fresh, hm.target_eq, indexMap]
  cases idx ⟨r.family, r.addr, r.mask.len⟩ <;> rfl

theorem Indexed.radixDel (hm : r.Masked) (hidx : idx r.target = some i) :
    ∃ t, alFilterRadixDel s r = (i, { s with tree := update s.tree r.family t }) ∧
      Represents t ((indexMap idx r.family).set r.addr r.mask.len none) := by
  have hspec := (h.trees r.family).rnDelete r.addr r.mask.len
  rw [hm.target_eq] at hidx
  have hmap : indexMap idx r.family r.addr r.mask.len = some i := hidx
  rw [alFilterRadixDel]
  cases hroute : rnDelete r.addr r.mask.len (s.tree r.family) with
  | none =>
    rw [hroute, hmap] at hspec
    cases hspec
  | some lt =>
    rw [hroute, hmap] at hspec
    exact ⟨lt.2, by rw [Option.some.inj hspec.1], hspec.2⟩

theorem Indexed.del (hm : r.Masked)
    (hone : ∀ c ∈ s.chains (alFilterRadixLookup s r), c.nums = 1 →
      (cfg r.target).length ≤ 1) :
    ∃ rc s', alFilterDel s r = some (rc, s') ∧ ∃ idx', Indexed s' (cfg.remove r) idx' := by
  rw [h.radixLookup hm] at hone
  simp only [alFilterDel, h.radixLookup hm, Config.remove]
  cases hidx : idx r.target with
  | none =>
    refine ⟨-1, s, by simp, idx, ?_⟩
    rw [h.bare _ hidx, List.filter_nil, ← h.bare _ hidx, update_eq_self]
    exact h
  | some i =>
    obtain ⟨c, hc, hcarries⟩ := h.chain _ i hidx
    rw [hidx, Option.getD_some] at hone
    obtain ⟨found, c', hdel, hrest⟩ := hcarries.delete r.conf.id (hone c hc)
    simp only [Option.getD_some, (h.bound _ i hidx).1, if_false, hc, hdel]
    split at hrest
    · rename_i hzero
      obtain ⟨t, hradix, ht⟩ := h.radixDel hm hidx
      simp only [hzero, if_true, hradix]
      refine ⟨_, _, rfl, update idx ⟨r.family, r.addr, r.mask.len⟩ none, ?_⟩
      rw [hm.target_eq] at hidx hrest ⊢
      rw [hrest]
      exact h.shrink hidx ht
    · rename_i hnonzero
      simp only [hnonzero, if_false]
      exact ⟨_, _, rfl, idx, h.rechain hidx hrest⟩

end Indexed

def Sane (st : State) : Prop :=
  ∃ idx, Indexed st.1 st.2 idx

theorem sane_start : Sane start :=
  ⟨fun _ => none,
    { trees := fun f => represents_rnInithead (by cases f <;> decide)
      chain := fun _ _ h => by cases h
      bare := fun _ _ => rfl
      bound := fun _ _ h => by cases h
      inj := fun _ _ _ h => by cases h }⟩

theorem Sane.track {st : State} (h : Sane st) {op : Op} (hg : Guard st op) :
    ∃ st', track st op = some st' ∧ Sane st' := by
  obtain ⟨idx, h⟩ := h
  cases op with
  | insert r env =>
    obtain ⟨henv, hmasked, hindex, hnew⟩ := hg
    obtain ⟨rc, s', hs', hidx'⟩ := h.insert hmasked hindex hnew henv
    exact ⟨(s', st.2.apply rc (.insert r env)), by rw [Filter.track, applyOp, hs']; rfl, hidx'⟩
  | del r =>
    obtain ⟨rc, s', hs', hidx'⟩ := h.del hg.1 hg.2
    exact ⟨(s', st.2.apply rc (.del r)), by rw [Filter.track, applyOp, hs']; rfl, hidx'⟩

def SearchesFollow (st : State) : Prop :=
  ∀ (f : Family) (dst : BitVec f.width), dst ≠ BitVec.allOnes f.width →
    ∀ port proto, SearchRule st.2 f dst port proto (alFilterSearch st.1 f dst port proto)

/-- In every history of calls that meet `Guard`, no call leaves its memory and every search
follows the rule. -/
theorem searches_follow_rule {ops : List Op} (h : Runs.Guarded track Guard start ops) :
    Runs.Along track SearchesFollow start ops :=
  Runs.Along.of_guarded
    (fun _ ⟨_, hidx⟩ _ _ hdst port proto => hidx.search hdst port proto)
    (fun _ _ hs hg => hs.track hg) sane_start h

def guardedOps : List Op :=
  nestedOps ++ [.del (narrow 2), .insert (wide 3) ampleEnv]

theorem searches_follow_rule_nested : Runs.Along track SearchesFollow start guardedOps :=
  searches_follow_rule (by decide +kernel)

def ninthOps : List Op :=
  ((List.range 9).map fun i => .insert (wide (.ofNat i)) ampleEnv) ++
    (List.range 8).map fun i => .del (wide (.ofNat i))

def Op.target : Op → Prefix
  | .insert r _ => r.target
  | .del r => r.target

theorem apply_of_ne (cfg : Config) (rc : Int) {op : Op} {p : Prefix} (hp : p ≠ op.target) :
    cfg.apply rc op p = cfg p := by
  cases op with
  | insert r env =>
    rw [Config.apply]
    split
    · exact update_of_ne hp _ _
    · rfl
  | del r => exact update_of_ne hp _ _

theorem bare_of_one_target {ops : List Op} {p : Prefix} (hops : ∀ op ∈ ops, op.target = p)
    {st : State} (h : ops.foldlM track start = some st) {q : Prefix} (hq : q ≠ p) :
    st.2 q = [] := by
  refine Runs.foldlM_invariant (P := fun st => st.2 q = []) ?_ rfl h
  intro st op st' hop hst hst'
  obtain ⟨_, -, rfl⟩ := Option.map_eq_some_iff.mp hst'
  exact (apply_of_ne st.2 _ (hops op hop ▸ hq)).trans hst

theorem SearchRule.of_single {cfg : Config} {f : Family} {k : BitVec f.width} {n : ℕ}
    (hbare : ∀ q, q ≠ ⟨f, k, n⟩ → cfg q = []) {dst : BitVec f.width}
    (hcover : PrefixMap.Covers k n dst) {port : UInt16} {proto : UInt8}
    (h : SearchRule cfg f dst port proto (some none)) :
    ∀ c ∈ cfg ⟨f, k, n⟩, c.serves port proto = false := by
  rcases h with hnone | ⟨rows, ⟨k', n', hrows, -, -⟩, hserves⟩
  · intro c hc
    have hlive : cfg.live f k n = some (cfg ⟨f, k, n⟩) := if_neg (List.ne_nil_of_mem hc)
    exact absurd hcover (hnone k n _ hlive)
  · rw [Config.live] at hrows
    split at hrows
    · cases hrows
    · rename_i hne
      cases hrows
      have heq : (⟨f, k', n'⟩ : Prefix) = ⟨f, k, n⟩ := by
        by_contra hq
        exact hne (hbare _ hq)
      rwa [heq] at hserves

theorem ninth_filter_lost :
    ∃ st, ninthOps.foldlM track start = some st ∧ ¬ SearchesFollow st := by
  let p : Prefix := ⟨.inet, (0x0a010000 : BitVec 32), 16⟩
  have hrun : (ninthOps.foldlM track start).any (fun st => st.2 p == [⟨8, 1, 0, 6, 80⟩] &&
      alFilterSearch st.1 .inet (0x0a010203 : BitVec 32) 0x5000 6 == some none) = true := by
    decide +kernel
  obtain ⟨st, hst, hfacts⟩ := (Option.any_eq_true _ _).mp hrun
  rw [Bool.and_eq_true, beq_iff_eq, beq_iff_eq] at hfacts
  refine ⟨st, hst, fun hfollow => ?_⟩
  have hdst : (0x0a010203 : BitVec 32) ≠ BitVec.allOnes 32 := by decide
  have hrule := hfollow .inet (0x0a010203 : BitVec 32) hdst 0x5000 6
  rw [hfacts.2] at hrule
  have hcover : PrefixMap.Covers (0x0a010000 : BitVec 32) 16 (0x0a010203 : BitVec 32) := by
    decide
  have htarget : ∀ op ∈ ninthOps, op.target = p := by decide +kernel
  have hnot := hrule.of_single (fun q hq => bare_of_one_target htarget hst hq) hcover
  rw [hfacts.1] at hnot
  exact absurd (hnot ⟨8, 1, 0, 6, 80⟩ (by simp)) (by decide)

end Aware.Filter
