import Mathlib.Algebra.Group.Nat.Defs
import Mathlib.Data.List.Forall2
import Mathlib.Data.Nat.Basic

/-!
# Slots scanned by a count of used ones

A cluster is an array of `n` slots with a counter beside it. A scan walks the slots
from the front and stops when it has met as many used slots as the counter says,
without looking at `n`: when the counter is too large the scan leaves the array.
-/
namespace Aware

structure Cluster (α : Type*) (n : ℕ) where
  cnt : UInt16
  m : List α
  size : m.length = n
  deriving DecidableEq

namespace Cluster

variable {α σ ρ : Type*} {n : ℕ}

/-- What the loop body does with a used slot: go on, or leave the loop. -/
inductive Visit (α σ ρ : Type*) where
  | next (s : σ) (a : α)
  | stop (r : ρ) (a : α)

/-- How a scan ends. `overrun` is a read past the last slot. -/
inductive Outcome (β σ ρ : Type*) where
  | done (s : σ) (b : β)
  | stopped (r : ρ) (b : β)
  | overrun
  deriving DecidableEq, Repr

def Outcome.map {β γ : Type*} (f : β → γ) : Outcome β σ ρ → Outcome γ σ ρ
  | .done s b => .done s (f b)
  | .stopped r b => .stopped r (f b)
  | .overrun => .overrun

/-- `for(i=0, j=0; i<cnt; j++)`, where `i` counts the used slots met so far. The second argument
is `cnt - i`. -/
def scanSlots (used : α → Bool) (body : ℕ → σ → α → Visit α σ ρ) :
    List α → ℕ → ℕ → σ → Outcome (List α) σ ρ
  | [], 0, _, s => .done s []
  | [], _ + 1, _, _ => .overrun
  | a :: rest, 0, _, s => .done s (a :: rest)
  | a :: rest, k + 1, j, s =>
    if used a then
      match body j s a with
      | .next s' a' => (scanSlots used body rest k (j + 1) s').map (a' :: ·)
      | .stop r a' => .stopped r (a' :: rest)
    else (scanSlots used body rest (k + 1) (j + 1) s).map (a :: ·)

def visitSlots (used : α → Bool) (body : ℕ → σ → α → Visit α σ ρ) :
    List α → ℕ → σ → Outcome (List α) σ ρ
  | [], _, s => .done s []
  | a :: rest, j, s =>
    if used a then
      match body j s a with
      | .next s' a' => (visitSlots used body rest (j + 1) s').map (a' :: ·)
      | .stop r a' => .stopped r (a' :: rest)
    else (visitSlots used body rest (j + 1) s).map (a :: ·)

section Scan
variable (used : α → Bool) (body : ℕ → σ → α → Visit α σ ρ)

theorem scanSlots_zero (l : List α) (j : ℕ) (s : σ) :
    scanSlots used body l 0 j s = .done s l := by
  cases l <;> rfl

theorem visitSlots_of_none (l : List α) (h : ∀ a ∈ l, used a = false) (j : ℕ) (s : σ) :
    visitSlots used body l j s = .done s l := by
  induction l generalizing j with
  | nil => rfl
  | cons a l ih =>
    simp only [List.mem_cons, forall_eq_or_imp] at h
    simp only [visitSlots, h.1, Bool.false_eq_true, if_false, ih h.2, Outcome.map]

theorem scanSlots_eq_visit (l : List α) {k : ℕ} (hk : l.countP used = k) (j : ℕ) (s : σ) :
    scanSlots used body l k j s = visitSlots used body l j s := by
  induction l generalizing k j s with
  | nil =>
    subst hk
    rfl
  | cons a l ih =>
    by_cases ha : used a = true
    · rw [List.countP_cons_of_pos ha] at hk
      subst hk
      simp only [scanSlots, visitSlots, ha, if_true]
      cases body j s a with
      | next s' a' => simp only [ih rfl]
      | stop r a' => rfl
    · rw [List.countP_cons_of_neg ha] at hk
      cases k with
      | zero =>
        rw [scanSlots_zero, visitSlots_of_none]
        simpa [List.countP_eq_zero, ha] using hk
      | succ k => simp only [scanSlots, visitSlots, ha, if_false, ih hk, Bool.false_eq_true]

theorem scanSlots_overrun (hbody : ∀ j s a r a', body j s a ≠ .stop r a') (l : List α) {k : ℕ}
    (hk : l.countP used < k) (j : ℕ) (s : σ) : scanSlots used body l k j s = .overrun := by
  induction l generalizing k j s with
  | nil =>
    cases k with
    | zero => exact absurd hk (Nat.lt_irrefl 0)
    | succ k => rfl
  | cons a l ih =>
    cases k with
    | zero => exact absurd hk (Nat.not_lt_zero _)
    | succ k =>
      by_cases ha : used a = true
      · rw [List.countP_cons_of_pos ha] at hk
        simp only [scanSlots, ha, if_true]
        cases hb : body j s a with
        | next s' a' => simp only [ih (Nat.lt_of_succ_lt_succ hk), Outcome.map]
        | stop r a' => exact absurd hb (hbody j s a r a')
      · rw [List.countP_cons_of_neg ha] at hk
        simp only [scanSlots, ha, Bool.false_eq_true, if_false, ih hk, Outcome.map]

end Scan

def Outcome.andThen (rest : List α) (k : σ → Outcome (List α) σ ρ) :
    Outcome (List α) σ ρ → Outcome (List α) σ ρ
  | .done s l => (k s).map (l ++ ·)
  | .stopped r l => .stopped r (l ++ rest)
  | .overrun => .overrun

theorem Outcome.map_map {β γ δ : Type*} (f : β → γ) (g : γ → δ) (o : Outcome β σ ρ) :
    (o.map f).map g = o.map (g ∘ f) := by
  cases o <;> rfl

theorem visitSlots_append (used : α → Bool) (body : ℕ → σ → α → Visit α σ ρ) (l₁ l₂ : List α)
    (j : ℕ) (s : σ) :
    visitSlots used body (l₁ ++ l₂) j s =
      (visitSlots used body l₁ j s).andThen l₂ (visitSlots used body l₂ (j + l₁.length)) := by
  induction l₁ generalizing j s with
  | nil =>
    simp only [List.nil_append, visitSlots, Outcome.andThen, List.length_nil, Nat.add_zero]
    cases visitSlots used body l₂ j s <;> rfl
  | cons a l₁ ih =>
    have hcons (b : α) (o : Outcome (List α) σ ρ) (k : σ → Outcome (List α) σ ρ) :
        (o.andThen l₂ k).map (b :: ·) = (o.map (b :: ·)).andThen l₂ k := by
      cases o with
      | done s l => exact Outcome.map_map _ _ _
      | stopped r l => rfl
      | overrun => rfl
    simp only [List.cons_append, visitSlots, ih, List.length_cons, Nat.add_right_comm j 1]
    split
    · cases body j s a with
      | next s' a' => exact hcons a' _ _
      | stop r a' => rfl
    · exact hcons a _ _

def Outcome.result {β : Type*} : Outcome β σ σ → Option (σ × β)
  | .done s b => some (s, b)
  | .stopped s b => some (s, b)
  | .overrun => none

variable {l : List α} {f : α → α} {c : Cluster α n} {i : ℕ}

theorem Outcome.result_map_cons {o : Outcome (List α) σ σ} {s : σ}
    (h : o.result = some (s, l)) (a : α) : (o.map (a :: ·)).result = some (s, a :: l) := by
  cases o <;> cases h <;> rfl

def Outcome.Returns {β : Type*} (P : β → Prop) : Outcome β σ ρ → Prop
  | .done _ b => P b
  | .stopped _ b => P b
  | .overrun => False

theorem Outcome.Returns.map {β γ : Type*} {P : β → Prop} {Q : γ → Prop} {f : β → γ}
    (hf : ∀ b, P b → Q (f b)) {o : Outcome β σ ρ} (h : o.Returns P) : (o.map f).Returns Q := by
  cases o with
  | done s b => exact hf b h
  | stopped r b => exact hf b h
  | overrun => exact h

theorem visitSlots_forall₂ {used : α → Bool} {body : ℕ → σ → α → Visit α σ ρ} {P : α → α → Prop}
    (hP : ∀ a, P a a)
    (hnext : ∀ j s a s' a', used a = true → body j s a = .next s' a' → P a a')
    (hstop : ∀ j s a r a', used a = true → body j s a = .stop r a' → P a a')
    (l : List α) (j : ℕ) (s : σ) :
    (visitSlots used body l j s).Returns (List.Forall₂ P l) := by
  induction l generalizing j s with
  | nil => exact .nil
  | cons a l ih =>
    by_cases hu : used a = true
    · simp only [visitSlots, hu, if_true]
      cases hb : body j s a with
      | next s' a' => exact (ih (j + 1) s').map fun _ h => .cons (hnext j s a s' a' hu hb) h
      | stop r a' => exact .cons (hstop j s a r a' hu hb) (List.forall₂_same.mpr fun a _ => hP a)
    · simp only [visitSlots, hu, Bool.false_eq_true, if_false]
      exact (ih (j + 1) s).map fun _ h => .cons (hP a) h

def Outcome.Keeps (k : ℕ) : Outcome (List α) σ ρ → Prop
  | .done _ l => l.length = k
  | .stopped _ l => l.length = k
  | .overrun => True

theorem Outcome.keeps_cons {o : Outcome (List α) σ ρ} {k : ℕ} (h : o.Keeps k) (a : α) :
    (o.map (a :: ·)).Keeps (k + 1) := by
  cases o with
  | done s l => exact congrArg (· + 1) h
  | stopped r l => exact congrArg (· + 1) h
  | overrun => trivial

theorem scanSlots_keeps (used : α → Bool) (body : ℕ → σ → α → Visit α σ ρ) (l : List α)
    (k j : ℕ) (s : σ) : (scanSlots used body l k j s).Keeps l.length := by
  induction l generalizing k j s with
  | nil =>
    cases k with
    | zero => exact Eq.refl _
    | succ k => trivial
  | cons a l ih =>
    cases k with
    | zero => exact Eq.refl _
    | succ k =>
      simp only [scanSlots]
      split
      · cases body j s a with
        | next s' a' => exact Outcome.keeps_cons (ih k (j + 1) s') a'
        | stop r a' => exact Eq.refl _
      · exact Outcome.keeps_cons (ih (k + 1) (j + 1) s) a

def Outcome.close (cnt : UInt16) :
    (o : Outcome (List α) σ ρ) → o.Keeps n → Outcome (Cluster α n) σ ρ
  | .done s l, h => .done s ⟨cnt, l, h⟩
  | .stopped r l, h => .stopped r ⟨cnt, l, h⟩
  | .overrun, _ => .overrun

def scan (used : α → Bool) (body : ℕ → σ → α → Visit α σ ρ) (c : Cluster α n) (j : ℕ) (s : σ) :
    Outcome (Cluster α n) σ ρ :=
  (scanSlots used body c.m c.cnt.toNat j s).close c.cnt (by
    have h := scanSlots_keeps used body c.m c.cnt.toNat j s
    rwa [c.size] at h)

def Exact (used : α → Bool) (c : Cluster α n) : Prop := c.cnt.toNat = c.m.countP used

instance (used : α → Bool) (c : Cluster α n) : Decidable (c.Exact used) :=
  inferInstanceAs (Decidable (_ = _))

section Closed
variable {used : α → Bool} {body : ℕ → σ → α → Visit α σ ρ} {c : Cluster α n}
variable {o : Outcome (List α) σ ρ}

theorem scan_of_eq {j : ℕ} {s : σ} (h : scanSlots used body c.m c.cnt.toNat j s = o) :
    ∃ hk, c.scan used body j s = o.close c.cnt hk := by
  subst h
  exact ⟨_, rfl⟩

theorem Exact.scan_eq {j : ℕ} {s : σ} (h : c.Exact used)
    (hv : visitSlots used body c.m j s = o) : ∃ hk, c.scan used body j s = o.close c.cnt hk :=
  scan_of_eq ((scanSlots_eq_visit used body c.m h.symm j s).trans hv)

theorem Outcome.map_close (cnt : UInt16) (o : Outcome (List α) σ ρ) (h : o.Keeps n) :
    (o.close cnt h).map Cluster.m = o := by
  cases o <;> rfl

theorem scan_cases (used : α → Bool) (body : ℕ → σ → α → Visit α σ ρ) (c : Cluster α n) (j : ℕ)
    (s : σ) :
    (∃ s' l hl, scanSlots used body c.m c.cnt.toNat j s = .done s' l ∧
        c.scan used body j s = .done s' ⟨c.cnt, l, hl⟩) ∨
      (∃ r l hl, scanSlots used body c.m c.cnt.toNat j s = .stopped r l ∧
        c.scan used body j s = .stopped r ⟨c.cnt, l, hl⟩) ∨
      scanSlots used body c.m c.cnt.toNat j s = .overrun ∧ c.scan used body j s = .overrun := by
  unfold scan
  generalize_proofs hk
  revert hk
  cases scanSlots used body c.m c.cnt.toNat j s with
  | done s' l => exact fun hk => .inl ⟨s', l, hk, rfl, rfl⟩
  | stopped r l => exact fun hk => .inr (.inl ⟨r, l, hk, rfl, rfl⟩)
  | overrun => exact fun hk => .inr (.inr ⟨rfl, rfl⟩)

theorem Exact.map_scan (body : ℕ → σ → α → Visit α σ ρ) (h : c.Exact used) (j : ℕ) (s : σ) :
    (c.scan used body j s).map Cluster.m = visitSlots used body c.m j s := by
  rw [← scanSlots_eq_visit used body c.m h.symm j s]
  exact Outcome.map_close _ _ _

end Closed

def seek (hit : α → Bool) (f : α → α) (_ : ℕ) (_ : Bool) (a : α) : Visit α Bool α :=
  if hit a then .stop a (f a) else .next true a

theorem visitSlots_seek_miss {used hit : α → Bool}
    (h : ∀ a ∈ l, used a = true → hit a = false) (j : ℕ) (s : Bool) :
    visitSlots used (seek hit f) l j s = .done (s || l.any used) l := by
  induction l generalizing j s with
  | nil => simp [visitSlots]
  | cons a l ih =>
    rw [List.forall_mem_cons] at h
    cases hu : used a with
    | false => simp [visitSlots, hu, ih h.2, Outcome.map]
    | true => simp [visitSlots, hu, seek, h.1 hu, ih h.2, Outcome.map]

theorem visitSlots_seek_hit {used hit : α → Bool} {pre : List α} {a : α}
    (hpre : ∀ b ∈ pre, used b = true → hit b = false) (ha : used a = true) (hhit : hit a = true)
    (post : List α) (j : ℕ) (s : Bool) :
    visitSlots used (seek hit f) (pre ++ a :: post) j s = .stopped a (pre ++ f a :: post) := by
  rw [visitSlots_append, visitSlots_seek_miss hpre]
  simp [Outcome.andThen, visitSlots, ha, seek, hhit, Outcome.map]

theorem Exact.seek_miss {used hit : α → Bool} (h : c.Exact used) (f : α → α)
    (hf : (c.m.filter used).find? hit = none) :
    c.scan used (seek hit f) 0 false = .done (c.m.any used) c := by
  have hmiss : ∀ a ∈ c.m, used a = true → hit a = false := by
    simpa using hf
  obtain ⟨_, hs⟩ := h.scan_eq (visitSlots_seek_miss (f := f) hmiss 0 false)
  exact hs

theorem Exact.seek_hit {used hit : α → Bool} (h : c.Exact used) (f : α → α)
    {a : α} (hf : (c.m.filter used).find? hit = some a) :
    ∃ pre post size, c.m = pre ++ a :: post ∧ used a = true ∧ hit a = true ∧
      (∀ b ∈ pre, used b = true → hit b = false) ∧
      c.scan used (seek hit f) 0 false = .stopped a ⟨c.cnt, pre ++ f a :: post, size⟩ := by
  rw [List.find?_filter] at hf
  obtain ⟨ha, pre, post, hsplit, hpre⟩ := List.find?_eq_some_iff_append.mp hf
  rw [decide_eq_true_iff] at ha
  have hmiss : ∀ b ∈ pre, used b = true → hit b = false := by
    intro b hb hu
    simpa [hu] using hpre b hb
  have hv := visitSlots_seek_hit (f := f) hmiss ha.1 ha.2 post 0 false
  rw [← hsplit] at hv
  obtain ⟨hk, hs⟩ := h.scan_eq hv
  exact ⟨pre, post, hk, hsplit, ha.1, ha.2, hmiss, hs⟩

def modify (c : Cluster α n) (i : ℕ) (f : α → α) : Cluster α n :=
  ⟨c.cnt, c.m.modify i f, by rw [List.length_modify, c.size]⟩

def firstFree (used : α → Bool) (c : Cluster α n) : Option ℕ :=
  c.m.findIdx? fun a => !used a

def put (c : Cluster α n) (i : ℕ) (f : α → α) : Cluster α n :=
  ⟨c.cnt + 1, c.m.modify i f, by rw [List.length_modify, c.size]⟩

theorem modify_append (l₁ l₂ : List α) (i : ℕ) (f : α → α) :
    (l₁ ++ l₂).modify i f =
      if i < l₁.length then l₁.modify i f ++ l₂ else l₁ ++ l₂.modify (i - l₁.length) f := by
  induction l₁ generalizing i with
  | nil => simp
  | cons a l₁ ih =>
    cases i with
    | zero => simp
    | succ i =>
      simp only [List.cons_append, List.modify_succ_cons, ih, List.length_cons,
        Nat.add_lt_add_iff_right, Nat.add_sub_add_right]
      split <;> rfl

theorem filter_modify_free {used : α → Bool} (hf : ∀ a, used (f a) = true)
    (h : l.findIdx? (fun a => !used a) = some i) :
    ∃ a, l.find? (fun a => !used a) = some a ∧
      ((l.modify i f).filter used).Perm (f a :: l.filter used) := by
  induction l generalizing i with
  | nil => simp at h
  | cons a l ih =>
    rw [List.findIdx?_cons] at h
    by_cases hu : used a = true
    · simp only [hu, Bool.not_true, Bool.false_eq_true, if_false, Option.map_eq_some_iff] at h
      obtain ⟨i, hi, rfl⟩ := h
      obtain ⟨b, hb, hperm⟩ := ih hi
      refine ⟨b, by simp [hu, hb], ?_⟩
      rw [List.modify_succ_cons, List.filter_cons_of_pos hu, List.filter_cons_of_pos hu]
      exact (hperm.cons a).trans (.swap _ _ _)
    · simp only [hu, Bool.not_false, if_true, Option.some.injEq] at h
      subst h
      refine ⟨a, by simp [hu], ?_⟩
      rw [List.modify_zero_cons, List.filter_cons_of_pos (hf a), List.filter_cons_of_neg hu]

theorem find?_free_eq_none {used : α → Bool}
    (h : l.findIdx? (fun a => !used a) = none) : l.find? (fun a => !used a) = none := by
  rw [List.findIdx?_eq_none_iff] at h
  simpa using h

theorem countP_modify_free {used : α → Bool} (hf : ∀ a, used (f a) = true)
    (h : l.findIdx? (fun a => !used a) = some i) :
    (l.modify i f).countP used = l.countP used + 1 := by
  obtain ⟨a, _, hperm⟩ := filter_modify_free hf h
  simpa [List.countP_eq_length_filter] using hperm.length_eq

theorem Exact.put {used : α → Bool} (hf : ∀ a, used (f a) = true) (hn : n < 2 ^ 16)
    (h : c.Exact used) (hi : c.firstFree used = some i) :
    (c.put i f).Exact used := by
  have hcount := countP_modify_free hf hi
  have hle : (c.m.modify i f).countP used ≤ (c.m.modify i f).length := List.countP_le_length
  rw [List.length_modify, c.size] at hle
  unfold Exact at h ⊢
  simp only [Cluster.put, hcount, UInt16.toNat_add, h, UInt16.toNat_one]
  omega

def Related (P : α → α → Prop) (c c' : Cluster α n) : Prop :=
  c'.cnt = c.cnt ∧ List.Forall₂ P c.m c'.m

section Related
variable {P : α → α → Prop} {used : α → Bool} {c c' : Cluster α n}

theorem Related.refl (hP : ∀ a, P a a) (c : Cluster α n) : c.Related P c :=
  ⟨rfl, List.forall₂_same.mpr fun a _ => hP a⟩

theorem countP_eq_of_forall₂ (hP : ∀ a b, P a b → used b = used a) {l l' : List α}
    (h : List.Forall₂ P l l') : l'.countP used = l.countP used := by
  induction h with
  | nil => rfl
  | cons hab _ ih => simp only [List.countP_cons, ih, hP _ _ hab]

theorem Related.exact (hP : ∀ a b, P a b → used b = used a) (hr : c.Related P c')
    (h : c.Exact used) : c'.Exact used := by
  unfold Exact at h ⊢
  rw [hr.1, h, countP_eq_of_forall₂ hP hr.2]

theorem modify_forall₂ (hP : ∀ a, P a a) {f : α → α} (hf : ∀ a, P a (f a)) (l : List α) (i : ℕ) :
    List.Forall₂ P l (l.modify i f) := by
  induction l generalizing i with
  | nil => simp
  | cons a l ih =>
    cases i with
    | zero => exact .cons (hf a) (List.forall₂_same.mpr fun a _ => hP a)
    | succ i => exact .cons (hP a) (ih i)

theorem modify_related (hP : ∀ a, P a a) {f : α → α} (hf : ∀ a, P a (f a)) (c : Cluster α n)
    (i : ℕ) : c.Related P (c.modify i f) :=
  ⟨rfl, modify_forall₂ hP hf c.m i⟩

theorem Exact.scan_related {body : ℕ → σ → α → Visit α σ ρ} (h : c.Exact used)
    (hP : ∀ a, P a a)
    (hnext : ∀ j s a s' a', used a = true → body j s a = .next s' a' → P a a')
    (hstop : ∀ j s a r a', used a = true → body j s a = .stop r a' → P a a') (j : ℕ) (s : σ) :
    (c.scan used body j s).Returns (c.Related P) := by
  have hv := visitSlots_forall₂ hP hnext hstop c.m j s
  rw [← scanSlots_eq_visit used body c.m h.symm j s] at hv
  unfold scan
  generalize_proofs hk
  revert hv hk
  cases scanSlots used body c.m c.cnt.toNat j s with
  | done s l => exact fun hv _ => ⟨rfl, hv⟩
  | stopped r l => exact fun hv _ => ⟨rfl, hv⟩
  | overrun => exact fun hv _ => hv

end Related

end Cluster

end Aware
