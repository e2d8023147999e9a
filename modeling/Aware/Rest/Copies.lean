import Aware.Lib.Keyed
import Aware.Member.Deletion
import Aware.Rest.Tables

/-!
# The copies of a group

A member is added to the copies that the filters have of its group, and deleted from them, one
after the other. A copy is visited once for each time its filter is listed.
-/
namespace Aware.Rest
open Aware.Member

section Loop
variable {T : Type} {op : T → UInt32 → Option (Int × T)} {t t' : T} {fid : UInt32}
  {fids all : List UInt32} {P : T → Prop} {Can : T → UInt32 → ℕ → Prop}

theorem overCopies_cons_eq_zero :
    overCopies op (fid :: fids) t = some (0, t') ↔
      ∃ t₁, op t fid = some (0, t₁) ∧ overCopies op fids t₁ = some (0, t') := by
  rw [overCopies, Option.bind_eq_some_iff]
  constructor
  · rintro ⟨⟨rc, t₁⟩, hstep, hrest⟩
    dsimp only at hrest
    split at hrest
    · next hrc => exact ⟨t₁, hrc ▸ hstep, hrest⟩
    · cases hrest
  · rintro ⟨t₁, hstep, hrest⟩
    exact ⟨_, hstep, hrest⟩

theorem overCopies_refused_iff {rc : Int} (hrc : rc ≠ 0) :
    overCopies op fids t = some (rc, t') ↔ rc = -1 ∧ ∃ pre fid post t₁ rc',
      fids = pre ++ fid :: post ∧ overCopies op pre t = some (0, t₁) ∧
        op t₁ fid = some (rc', t') ∧ rc' ≠ 0 := by
  induction fids generalizing t with
  | nil => simp [overCopies, hrc.symm]
  | cons fid fids ih =>
    constructor
    · intro h
      obtain ⟨⟨rc', t₁⟩, hstep, hrest⟩ := Option.bind_eq_some_iff.mp h
      dsimp only at hrest
      split at hrest
      · next hzero =>
          obtain ⟨hcode, pre, fid', post, t₂, rc'', rfl, hpre, hop, hne⟩ := ih.mp hrest
          exact ⟨hcode, fid :: pre, fid', post, t₂, rc'', rfl,
            overCopies_cons_eq_zero.mpr ⟨t₁, hzero ▸ hstep, hpre⟩, hop, hne⟩
      · next hne =>
          cases hrest
          exact ⟨rfl, [], fid, fids, t, rc', rfl, rfl, hstep, hne⟩
    · rintro ⟨hcode, pre, fid', post, t₁, rc', hsplit, hpre, hop, hne⟩
      cases pre with
      | nil =>
        cases hsplit
        cases hpre
        rw [overCopies, hop, Option.bind_some]
        exact (if_neg hne).trans (by rw [hcode])
      | cons _ pre =>
        cases hsplit
        obtain ⟨t₂, hstep, hrest⟩ := overCopies_cons_eq_zero.mp hpre
        rw [overCopies, hstep, Option.bind_some]
        exact ih.mpr ⟨hcode, pre, fid', post, t₁, rc', rfl, hrest, hop, hne⟩

theorem overCopies_returns (h : ∀ t fid, ∃ rc t', op t fid = some (rc, t')) (fids : List UInt32)
    (t : T) : ∃ rc t', overCopies op fids t = some (rc, t') := by
  induction fids generalizing t with
  | nil => exact ⟨0, t, rfl⟩
  | cons fid fids ih =>
    obtain ⟨rc, t₁, hstep⟩ := h t fid
    rw [overCopies, hstep, Option.bind_some]
    dsimp only
    split
    · exact ih t₁
    · exact ⟨-1, t₁, rfl⟩

/-- `Can t fid n` says that the operation succeeds `n` times in a row on the copy of `fid`, and
`P` is what it needs for that. -/
structure Budget (op : T → UInt32 → Option (Int × T)) (all : List UInt32) (P : T → Prop)
    (Can : T → UInt32 → ℕ → Prop) : Prop where
  mono : ∀ {t fid m n}, m ≤ n → Can t fid n → Can t fid m
  first : ∀ {t fid}, P t → fid ∈ all → ((∃ t', op t fid = some (0, t')) ↔ Can t fid 1)
  step : ∀ {t t' fid}, P t → fid ∈ all → op t fid = some (0, t') →
    P t' ∧ ∀ fid' n, Can t' fid' n ↔ Can t fid' (n + if fid = fid' then 1 else 0)

theorem count_cons_eq (fid fid' : UInt32) (fids : List UInt32) :
    (fid :: fids).count fid' = fids.count fid' + if fid = fid' then 1 else 0 := by
  rw [List.count_cons]
  simp only [beq_iff_eq]

theorem Budget.overCopies_iff (h : Budget op all P Can) (hP : P t) (hsub : fids ⊆ all) :
    (∃ t', overCopies op fids t = some (0, t')) ↔ ∀ fid ∈ fids, Can t fid (fids.count fid) := by
  induction fids generalizing t with
  | nil => simp [overCopies]
  | cons fid fids ih =>
    obtain ⟨hfid, hsub⟩ := List.cons_subset.mp hsub
    simp only [overCopies_cons_eq_zero]
    constructor
    · rintro ⟨t', t₁, hstep, hrest⟩
      obtain ⟨hP₁, hcan⟩ := h.step hP hfid hstep
      have hall := (ih hP₁ hsub).mp ⟨t', hrest⟩
      intro fid' hmem
      rw [count_cons_eq, ← hcan]
      by_cases hin : fid' ∈ fids
      · exact hall fid' hin
      · obtain rfl := (List.mem_cons.mp hmem).resolve_right hin
        rw [List.count_eq_zero_of_not_mem hin, hcan, if_pos rfl]
        exact (h.first hP hfid).mp ⟨t₁, hstep⟩
    · intro hall
      have hfirst := hall fid List.mem_cons_self
      rw [count_cons_eq, if_pos rfl] at hfirst
      obtain ⟨t₁, hstep⟩ := (h.first hP hfid).mpr (h.mono (Nat.le_add_left _ _) hfirst)
      obtain ⟨hP₁, hcan⟩ := h.step hP hfid hstep
      obtain ⟨t', hrest⟩ := (ih hP₁ hsub).mpr fun fid' hin => by
        rw [hcan, ← count_cons_eq]
        exact hall fid' (List.mem_cons_of_mem _ hin)
      exact ⟨t', t₁, hstep, hrest⟩

end Loop

section Views

def View.named (v : View) (gid mid fid : UInt32) : ℕ :=
  ((v.groups (alMakeKey fid gid)).map fun c => c.2.countP (AlMember.named mid)).getD 0

variable {fid gid mid : UInt32}

theorem View.hasMember_iff (v : View) : v.hasMember mid gid fid ↔ 0 < v.named gid mid fid := by
  rw [View.hasMember, View.named]
  cases v.groups (alMakeKey fid gid) <;> simp [AlMember.named, List.countP_pos_iff]

theorem view_groups (t : Tables) (key : UInt64) :
    t.view.groups key = (t.groups key).map fun mn => (mn.schd, mn.chain.members) := rfl

variable {t : Tables}

theorem named_of_some {mn : AlMemberNode} (h : t.groups (alMakeKey fid gid) = some mn) :
    t.view.named gid mid fid = mn.chain.members.countP (AlMember.named mid) := by
  rw [View.named, view_groups, h]
  rfl

theorem named_congr {t' : Tables}
    (h : t'.groups (alMakeKey fid gid) = t.groups (alMakeKey fid gid)) :
    t'.view.named gid mid fid = t.view.named gid mid fid := by
  rw [View.named, View.named, view_groups, view_groups, h]

theorem view_eq_of_groups {g : Groups}
    (h : ∀ key, ({ t with groups := g } : Tables).view.groups key = t.view.groups key) :
    ({ t with groups := g } : Tables).view = t.view := by
  have hg : ({ t with groups := g } : Tables).view.groups = t.view.groups := funext h
  exact congrArg (fun groups => { t.view with groups := groups }) hg

end Views

section Deletion
variable {t t' : Tables} {fid gid mid : UInt32} {fids : List UInt32}

def Tables.Counted (t : Tables) (gid : UInt32) (fids : List UInt32) : Prop :=
  ∀ fid ∈ fids, ∀ mn ∈ t.groups (alMakeKey fid gid), mn.chain.Counted

def Tables.Yields (t : Tables) (gid mid fid : UInt32) (n : ℕ) : Prop :=
  ∃ mn ∈ t.groups (alMakeKey fid gid), Member.Yields mid n mn.chain.clusters

def Tables.Misses (t : Tables) (gid mid fid : UInt32) : Prop :=
  ∀ mn ∈ t.groups (alMakeKey fid gid), Member.Exhausts mid mn.chain.clusters

def removed (mid : UInt32) (n : ℕ) (c : UInt8 × List AlMember) : UInt8 × List AlMember :=
  (c.1, (List.eraseP (AlMember.named mid))^[n] c.2)

theorem removed_zero (mid : UInt32) : removed mid 0 = id := rfl

theorem removed_comp (mid : UInt32) (m n : ℕ) : removed mid n ∘ removed mid m = removed mid (m + n) := by
  funext c
  simp only [removed, Function.comp_apply, ← Function.iterate_add_apply, Nat.add_comm]

structure Removed (gid mid fid : UInt32) (fids : List UInt32) (t t' : Tables) : Prop where
  counted : t'.Counted gid fids
  view : ∀ key, t'.view.groups key =
    (t.view.groups key).map (removed mid (if alMakeKey fid gid = key then 1 else 0))
  yields : ∀ fid' n, t'.Yields gid mid fid' n ↔ t.Yields gid mid fid' (n + if fid = fid' then 1 else 0)
  misses : ∀ fid', t'.Misses gid mid fid' ↔ fid' ≠ fid ∧ t.Misses gid mid fid'
  other : ∃ g, t' = { t with groups := g }

theorem Tables.Counted.memberRemove (hc : t.Counted gid fids) (hfid : fid ∈ fids)
    (h : memberRemove t fid gid mid = some (0, t')) : Removed gid mid fid fids t t' := by
  cases hmn : t.groups (alMakeKey fid gid) with
  | none =>
    simp only [Rest.memberRemove, alMemberDelete, hmn] at h
    cases h
  | some mn =>
    simp only [Rest.memberRemove, alMemberDelete, hmn] at h
    cases hdel : alMemberDel mn.chain mid with
    | miss c => simp only [hdel, DelResult.map] at h; cases h
    | fault => simp only [hdel, DelResult.map] at h; cases h
    | hit c =>
      simp only [hdel, DelResult.map] at h
      obtain ⟨hmembers, hcounted, hends, hyields⟩ :=
        alMemberDel_hit_members (hc fid hfid mn hmn) hdel
      have ht' := (Prod.mk.inj (Option.some.inj h)).2
      have hself : t'.groups (alMakeKey fid gid) = some { mn with chain := c } := by
        rw [← ht']
        exact Groups.set_self _ _ _
      have hother : ∀ key, key ≠ alMakeKey fid gid → t'.groups key = t.groups key := by
        intro key hne
        rw [← ht']
        exact Groups.set_of_ne _ hne _
      have hkey : ∀ fid', fid' ≠ fid → alMakeKey fid' gid ≠ alMakeKey fid gid :=
        fun fid' hne heq => hne (alMakeKey_inj.mp heq).1
      refine ⟨fun fid' hfid' mn' hmn' => ?_, fun key => ?_, fun fid' n => ?_, fun fid' => ?_, _,
        ht'.symm⟩
      · rcases eq_or_ne fid' fid with rfl | hne
        · cases hself.symm.trans hmn'
          exact hcounted
        · exact hc fid' hfid' mn' ((hother _ (hkey fid' hne)).symm.trans hmn')
      · rw [view_groups, view_groups]
        rcases eq_or_ne key (alMakeKey fid gid) with rfl | hne
        · rw [if_pos rfl, hself, hmn]
          simp [removed, hmembers]
        · rw [if_neg (Ne.symm hne), removed_zero, Option.map_id_apply, hother key hne]
      · rcases eq_or_ne fid' fid with rfl | hne
        · rw [if_pos rfl]
          simp only [Tables.Yields, hself, hmn, Option.mem_def, Option.some.injEq, exists_eq_left']
          exact hyields n
        · simp only [Tables.Yields, hother _ (hkey fid' hne), if_neg (Ne.symm hne)]
          rfl
      · rcases eq_or_ne fid' fid with rfl | hne
        · simpa [Tables.Misses, hself] using hends
        · simp [Tables.Misses, hother _ (hkey fid' hne), hne]

theorem Tables.Counted.memberRemove_iff (hc : t.Counted gid fids) (hfid : fid ∈ fids)
    (mid : UInt32) :
    (∃ t', Rest.memberRemove t fid gid mid = some (0, t')) ↔ t.Yields gid mid fid 1 := by
  cases hmn : t.groups (alMakeKey fid gid) with
  | none => simp [Rest.memberRemove, alMemberDelete, Tables.Yields, hmn]
  | some mn =>
    have hhit := alMemberDel_hit_iff (hc fid hfid mn hmn) mid
    simp only [Rest.memberRemove, alMemberDelete, Tables.Yields, hmn, Option.mem_def,
      Option.some.injEq, exists_eq_left', ← hhit]
    cases alMemberDel mn.chain mid <;> simp [DelResult.map]

theorem Tables.Counted.memberRemove_refused_iff (hc : t.Counted gid fids) (hfid : fid ∈ fids)
    (mid : UInt32) :
    (∃ rc t', Rest.memberRemove t fid gid mid = some (rc, t') ∧ rc ≠ 0) ↔ t.Misses gid mid fid := by
  cases hmn : t.groups (alMakeKey fid gid) with
  | none => simp [Rest.memberRemove, alMemberDelete, Tables.Misses, hmn]
  | some mn =>
    have hspec := alMemberDel_spec (hc fid hfid mn hmn) mid
    simp only [Rest.memberRemove, alMemberDelete, Tables.Misses, hmn, Option.mem_def,
      Option.some.injEq, forall_eq']
    cases hdel : alMemberDel mn.chain mid with
    | hit c =>
      rw [hdel] at hspec
      refine iff_of_false (by simp [DelResult.map]) fun hm => hm.not_yields ?_
      exact (hspec.2.2.2 0).mp (yields_zero mid _)
    | miss c =>
      rw [hdel] at hspec
      exact iff_of_true ⟨-1, _, rfl, by decide⟩ hspec.2
    | fault =>
      rw [hdel] at hspec
      exact iff_of_false (by simp [DelResult.map]) hspec.2

theorem Tables.Counted.memberRemove_refused (hc : t.Counted gid fids) (hfid : fid ∈ fids) {rc : Int}
    (h : Rest.memberRemove t fid gid mid = some (rc, t')) (hrc : rc ≠ 0) : t'.view = t.view := by
  cases hmn : t.groups (alMakeKey fid gid) with
  | none =>
    simp only [Rest.memberRemove, alMemberDelete, hmn] at h
    cases h
    rfl
  | some mn =>
    simp only [Rest.memberRemove, alMemberDelete, hmn] at h
    cases hdel : alMemberDel mn.chain mid with
    | hit c =>
      simp only [hdel, DelResult.map] at h
      cases h
      exact absurd rfl hrc
    | fault => simp only [hdel, DelResult.map] at h; cases h
    | miss c =>
      simp only [hdel, DelResult.map] at h
      obtain ⟨hmembers, -⟩ := alMemberDel_miss_members (hc fid hfid mn hmn) hdel
      cases h
      refine view_eq_of_groups fun key => ?_
      rw [view_groups, view_groups]
      rcases eq_or_ne key (alMakeKey fid gid) with rfl | hne
      · dsimp only
        rw [Groups.set_self, hmn, Option.map_some, Option.map_some, hmembers]
      · dsimp only
        rw [Groups.set_of_ne _ hne]

theorem deletion_budget (gid mid : UInt32) (fids : List UInt32) :
    Budget (fun t fid => Rest.memberRemove t fid gid mid) fids (Tables.Counted · gid fids)
      (Tables.Yields · gid mid) where
  mono hle := fun ⟨mn, hmn, h⟩ => ⟨mn, hmn, h.mono hle⟩
  first hc hfid := hc.memberRemove_iff hfid mid
  step hc hfid h :=
    have hr := hc.memberRemove hfid h
    ⟨hr.counted, hr.yields⟩

theorem Tables.Counted.overCopies {visits : List UInt32} (hc : t.Counted gid fids)
    (hsub : visits ⊆ fids)
    (h : overCopies (fun t fid => Rest.memberRemove t fid gid mid) visits t = some (0, t')) :
    (∀ key, t'.view.groups key =
      (t.view.groups key).map (removed mid ((visits.map (alMakeKey · gid)).count key))) ∧
      t'.Counted gid fids ∧ (∀ fid, t'.Misses gid mid fid ↔ fid ∉ visits ∧ t.Misses gid mid fid) ∧
      ∃ g, t' = { t with groups := g } := by
  induction visits generalizing t with
  | nil =>
    cases h
    refine ⟨fun key => ?_, hc, fun fid => ?_, _, rfl⟩
    · rw [List.map_nil, List.count_nil, removed_zero, Option.map_id_apply]
    · simp
  | cons fid visits ih =>
    obtain ⟨t₁, hstep, hrest⟩ := overCopies_cons_eq_zero.mp h
    obtain ⟨hfid, hsub⟩ := List.cons_subset.mp hsub
    obtain ⟨hc₁, hview, -, hmisses, g₁, rfl⟩ := hc.memberRemove hfid hstep
    obtain ⟨hrun, hc', hends, g, rfl⟩ := ih hc₁ hsub hrest
    refine ⟨fun key => ?_, hc', fun fid' => ?_, g, rfl⟩
    · rw [hrun, hview, Option.map_map, removed_comp, List.map_cons, List.count_cons, Nat.add_comm]
      simp only [beq_iff_eq]
    · rw [hends, hmisses, List.mem_cons, not_or]
      tauto

theorem Tables.Counted.overCopies_iff (hc : t.Counted gid fids) :
    (∃ t', Rest.overCopies (fun t fid => Rest.memberRemove t fid gid mid) fids t = some (0, t')) ↔
      ∀ fid ∈ fids, t.Yields gid mid fid (fids.count fid) :=
  (deletion_budget gid mid fids).overCopies_iff hc (List.Subset.refl _)

theorem count_keys (gid fid : UInt32) (fids : List UInt32) :
    (fids.map (alMakeKey · gid)).count (alMakeKey fid gid) = fids.count fid :=
  List.count_map_of_injective _ _ (fun _ _ heq => (alMakeKey_inj.mp heq).1) _

theorem named_removed {v v' : View} {visits : List UInt32}
    (h : ∀ key, v'.groups key =
      (v.groups key).map (removed mid ((visits.map (alMakeKey · gid)).count key))) (fid : UInt32) :
    v'.named gid mid fid = v.named gid mid fid - visits.count fid := by
  simp only [View.named, h, count_keys]
  cases v.groups (alMakeKey fid gid) with
  | none => simp
  | some c => simp [removed, Keyed.countP_iterate_eraseP]

theorem Tables.Yields.le_named {n : ℕ} (h : t.Yields gid mid fid n) : n ≤ t.view.named gid mid fid := by
  obtain ⟨mn, hmn, hyields⟩ := h
  rw [named_of_some hmn, members_eq_usedIn]
  exact hyields.le_countP

/-- The deletions of a member from the copies keep a request atomic: no copy is left with such a
member, and only the first may have none. -/
structure MemberDeletes (t : Tables) (gid mid : UInt32) (fids : List UInt32) (whole kept : Prop) :
    Prop where
  found : (∀ fid ∈ fids, t.Yields gid mid fid (fids.count fid)) →
    whole ∧ ∀ fid ∈ fids, t.view.named gid mid fid ≤ fids.count fid
  missed : ∀ pre fid post, fids = pre ++ fid :: post →
    (∀ fid ∈ pre, t.Yields gid mid fid (pre.count fid)) → t.Misses gid mid fid → pre = [] ∧ kept

theorem Tables.Counted.deletion_atomic_iff (hc : t.Counted gid fids) {whole kept : Prop} :
    (∀ rc t', Rest.overCopies (fun t fid => Rest.memberRemove t fid gid mid) fids t = some (rc, t') →
      if rc = 0 then whole ∧ ∀ fid ∈ fids, ¬ t'.view.hasMember mid gid fid
      else t'.view = t.view ∧ kept) ↔
      MemberDeletes t gid mid fids whole kept := by
  -- what is left in a copy after all visits
  have hleft : ∀ {t'}, Rest.overCopies (fun t fid => Rest.memberRemove t fid gid mid) fids t =
      some (0, t') → ((∀ fid ∈ fids, ¬ t'.view.hasMember mid gid fid) ↔
        ∀ fid ∈ fids, t.view.named gid mid fid ≤ fids.count fid) := by
    intro t' hrun
    have hview := (hc.overCopies (List.Subset.refl _) hrun).1
    refine forall₂_congr fun fid _ => ?_
    rw [View.hasMember_iff, named_removed hview]
    omega
  constructor
  · intro h
    refine ⟨fun hyields => ?_, fun pre fid post hsplit hyields hmisses => ?_⟩
    · obtain ⟨t', hrun⟩ := hc.overCopies_iff.mpr hyields
      have hatomic := h 0 t' hrun
      rw [if_pos rfl, hleft hrun] at hatomic
      exact hatomic
    · have hsub : pre ⊆ fids := hsplit ▸ List.subset_append_left _ _
      have hfid : fid ∈ fids := hsplit ▸ List.mem_append_right _ List.mem_cons_self
      obtain ⟨t₁, hpre⟩ := ((deletion_budget gid mid fids).overCopies_iff hc hsub).mpr hyields
      obtain ⟨hview, hc₁, hends, -⟩ := hc.overCopies hsub hpre
      -- a copy that was visited yields, so this one was not
      have hnew : fid ∉ pre := by
        intro hin
        obtain ⟨mn, hmn, hyield⟩ := hyields fid hin
        exact (hmisses mn hmn).not_yields (hyield.mono (List.count_pos_iff.mpr hin))
      obtain ⟨rc', t', hop, hne⟩ :=
        (hc₁.memberRemove_refused_iff hfid mid).mpr ((hends fid).mpr ⟨hnew, hmisses⟩)
      have hatomic := h (-1) t' ((overCopies_refused_iff (by decide)).mpr
        ⟨rfl, pre, fid, post, t₁, rc', hsplit, hpre, hop, hne⟩)
      rw [if_neg (by decide), hc₁.memberRemove_refused hfid hop hne] at hatomic
      refine ⟨?_, hatomic.2⟩
      by_contra hsome
      obtain ⟨fid', hfid'⟩ := List.exists_mem_of_ne_nil _ hsome
      have hnamed := named_removed hview fid'
      rw [hatomic.1] at hnamed
      have hle := (hyields fid' hfid').le_named
      have hpos := List.count_pos_iff.mpr hfid'
      omega
  · rintro ⟨hdone, hstop⟩ rc t' hrun
    split
    · next hrc =>
        subst hrc
        rw [hleft hrun]
        exact hdone (hc.overCopies_iff.mp ⟨t', hrun⟩)
    · next hrc =>
        obtain ⟨-, pre, fid, post, t₁, rc', hsplit, hpre, hop, hne⟩ := (overCopies_refused_iff hrc).mp hrun
        have hsub : pre ⊆ fids := hsplit ▸ List.subset_append_left _ _
        have hfid : fid ∈ fids := hsplit ▸ List.mem_append_right _ List.mem_cons_self
        have hyields := ((deletion_budget gid mid fids).overCopies_iff hc hsub).mp ⟨t₁, hpre⟩
        obtain ⟨-, hc₁, hends, -⟩ := hc.overCopies hsub hpre
        have hmisses := (hc₁.memberRemove_refused_iff hfid mid).mp ⟨rc', t', hop, hne⟩
        obtain ⟨rfl, hkept⟩ := hstop pre fid post hsplit hyields ((hends fid).mp hmisses).2
        cases hpre
        exact ⟨hc.memberRemove_refused hfid hop hne, hkept⟩

end Deletion

section Addition
variable {e : Supply} {t t' : Tables} {fid gid mid : UInt32} {fids : List UInt32} {conf : AlMemberConf}

def Tables.Takes (e : Supply) (t : Tables) (gid fid : UInt32) (n : ℕ) : Prop :=
  ∃ mn ∈ t.groups (alMakeKey fid gid), mn.chain.HasRoom (e.memberFresh fid) n

theorem memberInsert_ok (h : memberInsert e t fid gid conf = (0, t')) :
    (∀ fid' n, t'.Takes e gid fid' n ↔ t.Takes e gid fid' (n + if fid = fid' then 1 else 0)) ∧
      ∀ mid fid', t'.view.named gid mid fid' =
        t.view.named gid mid fid' + if conf.mid = mid ∧ fid = fid' then 1 else 0 := by
  simp only [memberInsert, alMemberAdd] at h
  cases hmn : t.groups (alMakeKey fid gid) with
  | none =>
    rw [hmn] at h
    cases h
  | some mn =>
    rw [hmn, Option.bind_some] at h
    cases hins : alMemberInsert mn.chain conf (e.memberFresh fid) with
    | none =>
      rw [hins] at h
      cases h
    | some c =>
      rw [hins] at h
      have ht' := (Prod.mk.inj h).2
      have hself : t'.groups (alMakeKey fid gid) = some { mn with chain := c } := by
        rw [← ht']
        exact Groups.set_self _ _ _
      have hother : ∀ fid', fid ≠ fid' →
          t'.groups (alMakeKey fid' gid) = t.groups (alMakeKey fid' gid) := by
        intro fid' hne
        rw [← ht']
        exact Groups.set_of_ne _ (fun heq => hne (alMakeKey_inj.mp heq).1.symm) _
      refine ⟨fun fid' n => ?_, fun mid fid' => ?_⟩
      · rcases eq_or_ne fid fid' with rfl | hne
        · simp only [Tables.Takes, hself, hmn, Option.mem_def, Option.some.injEq, exists_eq_left',
            if_true]
          exact alMemberInsert_hasRoom_iff hins n
        · simp only [Tables.Takes, hother _ hne, if_neg hne]
          rfl
      · rcases eq_or_ne fid fid' with rfl | hne
        · obtain ⟨m, -, hperm⟩ := alMemberInsert_members hins
          rw [named_of_some hself, named_of_some hmn, hperm.countP_eq, List.countP_cons]
          simp [AlMember.named, fill, alSetMember]
        · rw [named_congr (hother _ hne), if_neg fun hand => hne hand.2]
          rfl

theorem memberInsert_iff (e : Supply) (t : Tables) (fid gid : UInt32) (conf : AlMemberConf) :
    (∃ t', memberInsert e t fid gid conf = (0, t')) ↔ t.Takes e gid fid 1 := by
  simp only [memberInsert, alMemberAdd, Tables.Takes]
  cases t.groups (alMakeKey fid gid) with
  | none => simp
  | some mn =>
    have hsome := alMemberInsert_isSome_iff mn.chain conf (e.memberFresh fid)
    simp only [Option.bind_some, Option.mem_def, Option.some.injEq, exists_eq_left', ← hsome]
    cases alMemberInsert mn.chain conf (e.memberFresh fid) <;> simp

theorem memberInsert_refused {rc : Int} (h : memberInsert e t fid gid conf = (rc, t')) (hrc : rc ≠ 0) :
    t' = t := by
  rw [memberInsert] at h
  split at h
  · cases h
    rfl
  · cases h
    exact absurd rfl hrc

theorem addition_budget (e : Supply) (gid : UInt32) (conf : AlMemberConf) (fids : List UInt32) :
    Budget (fun t fid => some (memberInsert e t fid gid conf)) fids (fun _ => True)
      (Tables.Takes e · gid) where
  mono hle := fun ⟨mn, hmn, h⟩ => ⟨mn, hmn, h.imp_left hle.trans⟩
  first {t fid} _ _ := by
    simp only [Option.some.injEq]
    exact memberInsert_iff e t fid gid conf
  step _ _ h := ⟨trivial, (memberInsert_ok (Option.some.inj h)).1⟩

theorem named_added
    (h : overCopies (fun t fid => some (memberInsert e t fid gid conf)) fids t = some (0, t'))
    (mid fid : UInt32) :
    t'.view.named gid mid fid =
      t.view.named gid mid fid + if conf.mid = mid then fids.count fid else 0 := by
  induction fids generalizing t with
  | nil =>
    cases h
    simp
  | cons fid' fids ih =>
    obtain ⟨t₁, hstep, hrest⟩ := overCopies_cons_eq_zero.mp h
    rw [ih hrest, (memberInsert_ok (Option.some.inj hstep)).2, count_cons_eq]
    by_cases hmid : conf.mid = mid
    · simp only [hmid, true_and, if_true]
      omega
    · simp only [hmid, false_and, if_false]

/-- The additions of a member to the copies keep a request atomic: all copies take it, or the
first one does not. -/
structure MemberAdds (e : Supply) (t : Tables) (gid mid : UInt32) (conf : AlMemberConf)
    (fids : List UInt32) (undone : Prop) : Prop where
  taken : (∀ fid ∈ fids, t.Takes e gid fid (fids.count fid)) →
    conf.mid = mid ∨ ∀ fid ∈ fids, t.view.hasMember mid gid fid
  refused : (∃ fid ∈ fids, ¬ t.Takes e gid fid (fids.count fid)) →
    undone ∧ ∀ fid ∈ fids.head?, ¬ t.Takes e gid fid 1

theorem hasMember_added_iff
    (hrun : overCopies (fun t fid => some (memberInsert e t fid gid conf)) fids t = some (0, t')) :
    (∀ fid ∈ fids, t'.view.hasMember mid gid fid) ↔
      conf.mid = mid ∨ ∀ fid ∈ fids, t.view.hasMember mid gid fid := by
  simp only [View.hasMember_iff, named_added hrun]
  by_cases hmid : conf.mid = mid
  · simp only [hmid, if_true, true_or, iff_true]
    intro fid hfid
    have hpos := List.count_pos_iff.mpr hfid
    omega
  · simp only [hmid, if_false, false_or, Nat.add_zero]

theorem addition_atomic_iff (e : Supply) (t : Tables) (gid mid : UInt32) (conf : AlMemberConf)
    (fids : List UInt32) {undone : Prop} :
    (∀ rc t', overCopies (fun t fid => some (memberInsert e t fid gid conf)) fids t = some (rc, t') →
      if rc = 0 then ∀ fid ∈ fids, t'.view.hasMember mid gid fid else t'.view = t.view ∧ undone) ↔
      MemberAdds e t gid mid conf fids undone := by
  have htaken : (∃ t', overCopies (fun t fid => some (memberInsert e t fid gid conf)) fids t = some (0, t')) ↔
      ∀ fid ∈ fids, t.Takes e gid fid (fids.count fid) :=
    (addition_budget e gid conf fids).overCopies_iff trivial (List.Subset.refl _)
  constructor
  · intro h
    refine ⟨fun htakes => ?_, fun hfull => ?_⟩
    · obtain ⟨t', hrun⟩ := htaken.mpr htakes
      have hatomic := h 0 t' hrun
      rw [if_pos rfl] at hatomic
      exact (hasMember_added_iff hrun).mp hatomic
    · obtain ⟨rc, t', hrun⟩ : ∃ rc t', overCopies
          (fun t fid => some (memberInsert e t fid gid conf)) fids t = some (rc, t') :=
        overCopies_returns (fun t fid => ⟨_, _, rfl⟩) fids t
      have hrc : rc ≠ 0 := by
        rintro rfl
        obtain ⟨fid, hfid, hno⟩ := hfull
        exact hno (htaken.mp ⟨t', hrun⟩ fid hfid)
      have hatomic := h rc t' hrun
      rw [if_neg hrc] at hatomic
      obtain ⟨-, pre, fid, post, t₁, rc', rfl, hpre, hop, hne⟩ := (overCopies_refused_iff hrc).mp hrun
      obtain rfl := memberInsert_refused (Option.some.inj hop) hne
      refine ⟨hatomic.2, ?_⟩
      cases pre with
      | nil =>
        cases hpre
        rintro _ ⟨⟩ htakes
        obtain ⟨t'', hok⟩ := (memberInsert_iff e t fid gid conf).mpr htakes
        rw [hok] at hop
        cases hop
        exact hne rfl
      | cons fid' pre =>
        have hnamed := named_added hpre conf.mid fid'
        rw [hatomic.1, if_pos rfl, List.count_cons_self] at hnamed
        omega
  · rintro ⟨hdone, hstop⟩ rc t' hrun
    split
    · next hrc =>
        subst hrc
        refine (hasMember_added_iff hrun).mpr (hdone ?_)
        exact htaken.mp ⟨t', hrun⟩
    · next hrc =>
        have hfull : ∃ fid ∈ fids, ¬ t.Takes e gid fid (fids.count fid) := by
          by_contra hall
          simp only [not_exists, not_and, not_not] at hall
          obtain ⟨t'', hok⟩ := htaken.mpr hall
          rw [hok] at hrun
          cases hrun
          exact hrc rfl
        obtain ⟨hundone, hfirst⟩ := hstop hfull
        obtain ⟨-, pre, fid, post, t₁, rc', rfl, hpre, hop, hne⟩ := (overCopies_refused_iff hrc).mp hrun
        cases pre with
        | nil =>
          cases hpre
          rw [memberInsert_refused (Option.some.inj hop) hne]
          exact ⟨rfl, hundone⟩
        | cons fid' pre =>
          obtain ⟨t₂, hstep, -⟩ := overCopies_cons_eq_zero.mp hpre
          exact absurd ((memberInsert_iff e t fid' gid conf).mp ⟨t₂, Option.some.inj hstep⟩)
            (hfirst fid' rfl)

end Addition

end Aware.Rest
