import Aware.Filter.Store

/-!
# The filters that the tables hold

The filters of every entry of the trees, and what an insertion and a deletion do to them.
-/
namespace Aware.Filter
open Function Aware.Radix

def Filters.filtersAt (s : Filters) (index : UInt32) : List AlFilter :=
  ((s.chains index).map AlFilterChain.filters).getD []

def Filters.held (s : Filters) (f : Family) (k : BitVec f.width) (n : ℕ) : List AlFilter :=
  (((s.tree f).entry k n).map s.filtersAt).getD []

def Filters.HasFilter (s : Filters) (fid : UInt32) : Prop :=
  ∃ f k n, ∃ m ∈ s.held f k n, m.fid = fid

def Filters.Entered (s : Filters) (index : UInt32) : Prop :=
  ∃ f k n, (s.tree f).entry k n = some index

variable {s s' : Filters} {r : Request} {env : Env} {rc : Int}

theorem mem_held {f : Family} {k : BitVec f.width} {n : ℕ} {m : AlFilter} :
    m ∈ s.held f k n ↔ ∃ i, (s.tree f).entry k n = some i ∧ m ∈ s.filtersAt i := by
  rw [Filters.held]
  cases (s.tree f).entry k n <;> simp

theorem hasFilter_iff {fid : UInt32} :
    s.HasFilter fid ↔ ∃ i, s.Entered i ∧ ∃ m ∈ s.filtersAt i, m.fid = fid := by
  simp only [Filters.HasFilter, Filters.Entered, mem_held]
  grind

theorem filtersAt_update (s : Filters) (i : UInt32) (c : Option AlFilterChain) (j : UInt32) :
    Filters.filtersAt { s with chains := update s.chains i c } j =
      if j = i then (c.map AlFilterChain.filters).getD [] else s.filtersAt j := by
  simp only [Filters.filtersAt, update_apply]
  split <;> rfl

theorem held_update (s : Filters) (i : UInt32) (c : Option AlFilterChain) (f : Family)
    (k : BitVec f.width) (n : ℕ) :
    Filters.held { s with chains := update s.chains i c } f k n =
      if (s.tree f).entry k n = some i then (c.map AlFilterChain.filters).getD [] else s.held f k n := by
  simp only [Filters.held]
  cases (s.tree f).entry k n with
  | none => rfl
  | some j =>
    simp only [Option.map_some, Option.getD_some, filtersAt_update, Option.some.injEq]

theorem filtersAt_of_some {i : UInt32} {c : AlFilterChain} (hc : s.chains i = some c) :
    s.filtersAt i = c.filters := by
  rw [Filters.filtersAt, hc]
  rfl

section Insert

theorem radixInsert_chains (s : Filters) (r : Request) (calloc : Bool) :
    (alFilterRadixInsert s r calloc).2.chains = s.chains := by
  simp only [alFilterRadixInsert]
  split
  · split <;> rfl
  · rfl

theorem radixDel_chains (s : Filters) (r : Request) : (alFilterRadixDel s r).2.chains = s.chains := by
  rw [alFilterRadixDel]
  split <;> rfl

theorem Filters.Kept.radixInsert_entry (h : s.Kept) {calloc : Bool}
    (hindex : (alFilterRadixInsert s r calloc).1 ≠ 0) :
    ((alFilterRadixInsert s r calloc).2.tree r.family).entry r.addr r.mask.len =
      some (alFilterRadixInsert s r calloc).1 := by
  simp only [alFilterRadixInsert] at hindex ⊢
  split at hindex
  · cases hadd : rnAddroute r.addr r.mask.len (s.index + 1) (s.tree r.family) with
    | none =>
      rw [hadd] at hindex
      exact absurd rfl hindex
    | some t =>
      have hentry := ((h.trees r.family).rnAddroute hadd).2.2.2
      simp [*]
  · exact absurd rfl hindex

theorem Filters.Kept.radixDel_radixInsert (h : s.Kept) {calloc : Bool}
    (hindex : (alFilterRadixInsert s r calloc).1 ≠ 0) (f : Family) (k : BitVec f.width) (n : ℕ) :
    ((alFilterRadixDel (alFilterRadixInsert s r calloc).2 r).2.tree f).entry k n =
      (s.tree f).entry k n := by
  simp only [alFilterRadixInsert] at hindex ⊢
  split at hindex
  · cases hadd : rnAddroute r.addr r.mask.len (s.index + 1) (s.tree r.family) with
    | none =>
      rw [hadd] at hindex
      exact absurd rfl hindex
    | some t =>
      obtain ⟨hkept, htaken, hremovable, hentry⟩ := (h.trees r.family).rnAddroute hadd
      obtain ⟨⟨l, t'⟩, hdel⟩ :=
        Option.isSome_iff_exists.mp ((hkept.shaped.rnDelete_isSome_iff _ _).mpr hremovable)
      have hdeleted := (hkept.rnDelete hdel).2.2
      simp only [alFilterRadixDel, if_true, *, update_self, update_idem]
      rcases eq_or_ne f r.family with rfl | hf
      · rw [update_self, hdeleted, hentry]
        split
        · next hkn =>
            obtain ⟨rfl, rfl⟩ := hkn
            exact ((h.trees r.family).shaped.entry_eq_none_iff.mpr htaken).symm
        · rfl
      · rw [update_of_ne hf]
  · exact absurd rfl hindex

theorem held_congr (htree : ∀ f k n, (s'.tree f).entry k n = (s.tree f).entry k n)
    (hchains : s'.chains = s.chains) (f : Family) (k : BitVec f.width) (n : ℕ) :
    s'.held f k n = s.held f k n := by
  simp only [Filters.held, htree]
  congr 2
  funext i
  rw [Filters.filtersAt, hchains]
  rfl

theorem Filters.Kept.radixInsert_zero (h : s.Kept) {calloc : Bool}
    (hzero : (alFilterRadixInsert s r calloc).1 = 0) (f : Family) (k : BitVec f.width) (n : ℕ) :
    (alFilterRadixInsert s r calloc).2.held f k n = s.held f k n := by
  simp only [alFilterRadixInsert] at hzero ⊢
  split at hzero
  · cases hadd : rnAddroute r.addr r.mask.len (s.index + 1) (s.tree r.family) with
    | none =>
      simp only [*, if_true]
      rfl
    | some t =>
      obtain ⟨-, htaken, -, hentry⟩ := (h.trees r.family).rnAddroute hadd
      rw [hadd] at hzero
      have hindex : s.index + 1 = 0 := hzero
      rcases eq_or_ne f r.family with rfl | hf
      · have hnone := (h.trees r.family).shaped.entry_eq_none_iff.mpr htaken
        simp only [*, if_true, Filters.held, update_self]
        split
        · next hkn =>
            obtain ⟨rfl, rfl⟩ := hkn
            rw [hnone]
            simp [Filters.filtersAt, h.zero]
        · rfl
      · simp only [*, if_true, Filters.held, update_of_ne hf]
        rfl
  · rw [if_neg ‹_›]

theorem Filters.Kept.insert_refused (h : s.Kept) (hs : alFilterInsert s r env = some (rc, s'))
    (hrc : rc ≠ 0) (f : Family) (k : BitVec f.width) (n : ℕ) : s'.held f k n = s.held f k n := by
  rw [alFilterInsert] at hs
  split at hs
  · split at hs
    · cases hs
    · next c hc =>
        have hspec := (h.chains _ c hc).1.add_spec r.conf env.load env.fresh
        split at hspec
        · obtain ⟨c', hadd, -⟩ := hspec
          rw [hadd] at hs
          cases hs
          exact absurd rfl hrc
        · obtain ⟨rc', -, hadd⟩ := hspec
          rw [hadd] at hs
          cases hs
          rw [update_eq_self_iff.mpr hc.symm]
  · simp only at hs
    split at hs
    · next hzero =>
        cases hs
        exact h.radixInsert_zero hzero f k n
    · next hindex =>
        have hback := held_congr (s := s) (fun f k n => h.radixDel_radixInsert hindex f k n)
          (by rw [radixDel_chains, radixInsert_chains])
        split at hs
        · cases hs
          exact hback f k n
        · split at hs
          · cases hs
            exact absurd rfl hrc
          · cases hs
            exact hback f k n

/-- The chain that a new filter goes to can be reached: it is new, or an entry leads to it. -/
def Linked (s : Filters) (r : Request) : Prop :=
  ∀ l ∈ (rnMatch r.addr (s.tree r.family)).filter fun l => l.len == r.mask.len, s.Entered l.data

theorem Filters.Kept.hasFilter_insert_iff (h : s.Kept) (hs : alFilterInsert s r env = some (0, s')) :
    s'.HasFilter r.conf.id ↔ Linked s r ∨ s.HasFilter r.conf.id := by
  simp only [alFilterInsert, alFilterSame_eq] at hs
  rw [Linked]
  cases hmatch : (rnMatch r.addr (s.tree r.family)).filter fun l => l.len == r.mask.len with
  | some l =>
    rw [hmatch, Option.map_some] at hs
    simp only at hs
    split at hs
    · cases hs
    · next c hc =>
        have hspec := (h.chains _ c hc).1.add_spec r.conf env.load env.fresh
        split at hspec
        · obtain ⟨c', hadd, -, hperm, -⟩ := hspec
          rw [hadd] at hs
          cases hs
          have hat : ∀ i m, m ∈ Filters.filtersAt
              { s with chains := update s.chains l.data (some c') } i ↔
              (i = l.data ∧ m = alSetFilter r.conf) ∨ m ∈ s.filtersAt i := by
            intro i m
            rw [filtersAt_update]
            split
            · next hi =>
                rw [hi, filtersAt_of_some hc, Option.map_some, Option.getD_some, hperm.mem_iff,
                  List.mem_cons]
                simp
            · next hi => simp [hi]
          simp only [hasFilter_iff, hat, Option.mem_def, Option.some.injEq, forall_eq']
          constructor
          · rintro ⟨i, hi, m, ⟨rfl, -⟩ | hm, hid⟩
            · exact .inl hi
            · exact .inr ⟨i, hi, m, hm, hid⟩
          · rintro (hi | ⟨i, hi, m, hm, hid⟩)
            · exact ⟨_, hi, _, .inl ⟨rfl, rfl⟩, rfl⟩
            · exact ⟨i, hi, m, .inr hm, hid⟩
        · obtain ⟨rc', hrc, hadd⟩ := hspec
          rw [hadd] at hs
          cases hs
          exact absurd rfl hrc
  | none =>
    refine iff_of_true ?_ (.inl (by simp))
    rw [hmatch, Option.map_none] at hs
    simp only at hs
    split at hs
    · cases hs
    · next hindex =>
        split at hs
        · cases hs
        · next mem _ =>
            have hspec := (newChain_sound mem).add_spec r.conf env.load env.fresh
            split at hs
            · next hzero =>
                cases hs
                refine ⟨r.family, r.addr, r.mask.len, alSetFilter r.conf, ?_, rfl⟩
                rw [held_update, if_pos (h.radixInsert_entry hindex)]
                split at hspec
                · obtain ⟨c', hadd, -, hperm, -⟩ := hspec
                  rw [hadd]
                  exact hperm.mem_iff.mpr List.mem_cons_self
                · obtain ⟨rc', hrc, hadd⟩ := hspec
                  rw [hadd] at hzero
                  exact absurd hzero hrc
            · cases hs

end Insert

section Delete

def Filters.Finds (s : Filters) (r : Request) : Prop :=
  ∃ m ∈ s.filtersAt (alFilterRadixLookup s r), m.fid = r.conf.id

theorem Filters.Kept.del_miss (h : s.Kept) (hmiss : ¬ s.Finds r) :
    ∃ s', alFilterDel s r = some (-1, s') ∧ s'.tree = s.tree ∧ s'.filtersAt = s.filtersAt := by
  simp only [alFilterDel]
  split
  · exact ⟨s, rfl, rfl, rfl⟩
  · cases hc : s.chains (alFilterRadixLookup s r) with
    | none => exact ⟨s, rfl, rfl, rfl⟩
    | some c =>
      obtain ⟨hsound, hnums⟩ := h.chains _ c hc
      obtain ⟨c', hdel, -, hfilters, hnums'⟩ := hsound.delete hnums r.conf.id
      have hnone : c.filters.find? (fun m => m.fid == r.conf.id) = none := by
        simpa [Filters.Finds, filtersAt_of_some hc] using hmiss
      rw [hnone, Option.isSome_none] at hdel hnums'
      simp only [Bool.false_eq_true, if_false] at hnums'
      simp only [hdel, hnums', UInt16.pos_iff_ne_zero.mp hnums, Bool.false_eq_true, if_false]
      refine ⟨_, rfl, rfl, funext fun i => ?_⟩
      rw [filtersAt_update]
      split
      · next hi =>
          rw [hi, filtersAt_of_some hc, Option.map_some, Option.getD_some, hfilters,
            List.eraseP_of_forall_not (by simpa using hnone)]
      · rfl

/-- All entries of the chain lose the filter, or everything when the counter says that it is the
last. -/
theorem Filters.Kept.del_hit (h : s.Kept) {c : AlFilterChain}
    (hc : s.chains (alFilterRadixLookup s r) = some c) (hfinds : s.Finds r) :
    ∃ rc s', alFilterDel s r = some (rc, s') ∧
      (rc = 0 ↔ (c.nums = 1 → (s.tree r.family).Removable r.addr r.mask.len)) ∧
      ∀ f k n, s'.held f k n =
        if (s.tree f).entry k n = some (alFilterRadixLookup s r) then
          if c.nums = 1 then [] else c.filters.eraseP fun m => m.fid == r.conf.id
        else s.held f k n := by
  obtain ⟨hsound, hnums⟩ := h.chains _ c hc
  obtain ⟨c', hdel, -, hfilters, hnums'⟩ := hsound.delete hnums r.conf.id
  have hfound : (c.filters.find? fun m => m.fid == r.conf.id).isSome = true := by
    simpa [Filters.Finds, filtersAt_of_some hc] using hfinds
  rw [hfound, if_pos rfl] at hnums'
  rw [hfound] at hdel
  have hone : c'.nums = 0 ↔ c.nums = 1 := by
    rw [hnums', UInt16.sub_eq_iff_eq_add, UInt16.zero_add]
  simp only [alFilterDel, if_neg (h.ne_zero hc), hc, hdel, if_true, hone]
  split
  · next hlast =>
      have hsome := (h.trees r.family).shaped.rnDelete_isSome_iff r.addr r.mask.len
      simp only [hlast, forall_const]
      cases hroute : rnDelete r.addr r.mask.len (s.tree r.family) with
      | none =>
        rw [hroute] at hsome
        have hradix : alFilterRadixDel s r = (0, s) := by rw [alFilterRadixDel, hroute]
        rw [hradix]
        exact ⟨-1, _, rfl, by simpa using hsome, fun f k n => held_update s _ none f k n⟩
      | some lt =>
        obtain ⟨l, t⟩ := lt
        obtain ⟨-, hentry, hentries⟩ := (h.trees r.family).rnDelete hroute
        have hindex : alFilterRadixLookup s r = l.data := by
          rw [alFilterRadixLookup, rnLookup_of_entry hentry]
        have hradix : alFilterRadixDel s r =
            (l.data, { s with tree := update s.tree r.family t }) := by
          rw [alFilterRadixDel, hroute]
        rw [hroute] at hsome
        rw [hradix]
        refine ⟨0, _, by rw [if_neg (hindex ▸ h.ne_zero hc)], by simpa using hsome, fun f k n => ?_⟩
        rw [held_update { s with tree := update s.tree r.family t }]
        rcases eq_or_ne f r.family with rfl | hf
        · simp only [update_self, hentries, Filters.held]
          by_cases hkn : k = r.addr ∧ n = r.mask.len
          · obtain ⟨rfl, rfl⟩ := hkn
            simp [hentry, hindex]
          · simp only [hkn, if_false]
            rfl
        · simp only [update_of_ne hf, Filters.held]
          rfl
  · next hmore =>
      refine ⟨0, _, rfl, by simp [hmore], fun f k n => ?_⟩
      rw [held_update, Option.map_some, Option.getD_some, hfilters]

end Delete

end Aware.Filter
