import Aware.Session.Table

/-!
The idle sweep over the session table of a thread. It walks every bucket with the next node
saved before the body runs, and the body may unlink and free the partner of the current
session wherever that one is.
-/
namespace Aware.Sessions

section Model
variable {ι : Type} [DecidableEq ι]

/-- The state of a sweep. A bucket at any moment is the part of its first list that is still
linked. -/
structure Sweep (ι : Type) where
  heap : ι → Session ι
  linked : ι → Bool
  freed : List ι
  ports : Ports

def countDown (heap : ι → Session ι) (s : ι) : ι → Session ι :=
  fun x => if x = s then { heap x with stout := (heap x).stout - 1 } else heap x

def unlinkFree (st : Sweep ι) (s : ι) : Sweep ι :=
  { st with
    linked := fun x => if x = s then false else st.linked x
    freed := st.freed ++ [s]
    ports := alSessionFree st.ports (st.heap s) }

/-- The body of the loop at `s`, with `t` the saved next node; `none` when it goes on to freed
memory or unlinks a node without links. -/
def visit (s : ι) (t : Option ι) (st : Sweep ι) : Option (Sweep ι) :=
  let u := (st.heap s).up
  let st := { st with heap := countDown (countDown st.heap s) u }
  if (st.heap s).stout = 0 ∧ (st.heap u).stout = 0 then
    if st.linked u = false ∨ t = some u then none else some (unlinkFree (unlinkFree st s) u)
  else some st

def sweepBucket : List ι → Sweep ι → Option (Sweep ι)
  | [], st => some st
  | s :: rest, st =>
    if st.linked s then (visit s (rest.find? st.linked) st).bind (sweepBucket rest)
    else sweepBucket rest st

def alSessionTimeout : List (List ι) → Sweep ι → Option (Sweep ι)
  | [], st => some st
  | bucket :: table, st => (sweepBucket bucket st).bind (alSessionTimeout table)

def Sweep.start (table : List (List ι)) (heap : ι → Session ι) (ports : Ports) : Sweep ι :=
  ⟨heap, fun x => decide (x ∈ table.flatten), [], ports⟩

def Sweep.table (st : Sweep ι) (table : List (List ι)) : List (List ι) :=
  table.map fun bucket => bucket.filter st.linked

end Model

section Pairs
variable {ι : Type}

/-- Every session is in one place, and its partner is another session of the table that points
back. -/
structure Paired (table : List (List ι)) (heap : ι → Session ι) : Prop where
  nodup : table.flatten.Nodup
  mem : ∀ x ∈ table.flatten, (heap x).up ∈ table.flatten
  back : ∀ x ∈ table.flatten, (heap (heap x).up).up = x
  ne : ∀ x ∈ table.flatten, (heap x).up ≠ x

def idle (heap : ι → Session ι) (x : ι) : ℕ := max (heap x).stout (heap (heap x).up).stout

/-- `s` expires when it is visited, its partner is further down the bucket, and every session
between the two has gone before. -/
def HazardAt (heap : ι → Session ι) (before rest : List ι) (s : ι) : Prop :=
  idle heap s ≤ 1 ∧ ∃ mid tail, rest = mid ++ (heap s).up :: tail ∧
    ∀ x ∈ mid, idle heap x ≤ 1 ∧ (heap x).up ∈ before

def HazardIn (heap : ι → Session ι) (before bucket : List ι) : Prop :=
  ∃ pre s rest, bucket = pre ++ s :: rest ∧ HazardAt heap (before ++ pre) rest s

def Hazard (heap : ι → Session ι) (table : List (List ι)) : Prop :=
  ∃ pre bucket post, table = pre ++ bucket :: post ∧ HazardIn heap pre.flatten bucket

variable {heap : ι → Session ι}

theorem hazardIn_cons {before rest : List ι} {s : ι} : HazardIn heap before (s :: rest) ↔
      HazardAt heap before rest s ∨ HazardIn heap (before ++ [s]) rest := by
  constructor
  · rintro ⟨pre, x, tail, heq, hz⟩
    cases pre with
    | nil =>
      cases heq
      exact .inl (by simpa using hz)
    | cons y pre =>
      cases heq
      exact .inr ⟨pre, x, tail, rfl, by simpa using hz⟩
  · rintro (hz | ⟨pre, x, tail, rfl, hz⟩)
    · exact ⟨[], s, rest, rfl, by simpa using hz⟩
    · exact ⟨s :: pre, x, tail, rfl, by simpa using hz⟩

theorem hazard_cons {before : List ι} {bucket : List ι} {table : List (List ι)} :
    (∃ pre b post, bucket :: table = pre ++ b :: post ∧ HazardIn heap (before ++ pre.flatten) b) ↔
      HazardIn heap before bucket ∨
        ∃ pre b post, table = pre ++ b :: post ∧
          HazardIn heap ((before ++ bucket) ++ pre.flatten) b := by
  constructor
  · rintro ⟨pre, b, post, heq, hz⟩
    cases pre with
    | nil =>
      cases heq
      exact .inl (by simpa using hz)
    | cons y pre =>
      cases heq
      exact .inr ⟨pre, b, post, rfl, by simpa using hz⟩
  · rintro (hz | ⟨pre, b, post, rfl, hz⟩)
    · exact ⟨[], bucket, table, rfl, by simpa using hz⟩
    · exact ⟨bucket :: pre, b, post, rfl, by simpa using hz⟩

theorem Paired.idle_up {table : List (List ι)} (h : Paired table heap) {x : ι}
    (hx : x ∈ table.flatten) :
    idle heap (heap x).up = idle heap x := by
  unfold idle
  rw [h.back x hx, max_comm]

theorem mem_flatten_filter {l : List (List ι)} {f : ι → Bool} {x : ι} :
    x ∈ (l.map fun b => b.filter f).flatten ↔ x ∈ l.flatten ∧ f x = true := by
  simp only [List.mem_flatten, List.mem_map]
  constructor
  · rintro ⟨_, ⟨b, hb, rfl⟩, hx⟩
    exact ⟨⟨b, hb, (List.mem_filter.mp hx).1⟩, (List.mem_filter.mp hx).2⟩
  · rintro ⟨⟨b, hb, hx⟩, hf⟩
    exact ⟨_, ⟨b, hb, rfl⟩, List.mem_filter.mpr ⟨hx, hf⟩⟩

theorem not_hazard_of_apart {table : List (List ι)}
    (h : ∀ bucket ∈ table, ∀ x ∈ bucket, (heap x).up ∉ bucket) : ¬ Hazard heap table := by
  rintro ⟨pre, bucket, post, rfl, left, s, rest, rfl, _, mid, tail, rfl, _⟩
  have hbucket := h (left ++ s :: (mid ++ (heap s).up :: tail)) (by simp)
  exact hbucket s (by simp) (by simp)

end Pairs

section OnlyStout
variable {ι : Type}

def OnlyStout (heap heap' : ι → Session ι) : Prop :=
  ∀ x, ∃ n, heap' x = { heap x with stout := n }

theorem OnlyStout.refl (heap : ι → Session ι) : OnlyStout heap heap :=
  fun x => ⟨(heap x).stout, rfl⟩

theorem OnlyStout.trans {heap heap' heap'' : ι → Session ι} (h : OnlyStout heap heap')
    (h' : OnlyStout heap' heap'') : OnlyStout heap heap'' := by
  intro x
  obtain ⟨n, hn⟩ := h x
  obtain ⟨m, hm⟩ := h' x
  exact ⟨m, by rw [hm, hn]⟩

end OnlyStout

section Sweep
variable {ι : Type} [DecidableEq ι] {table : List (List ι)} {heap : ι → Session ι} {before : List ι}
  {st : Sweep ι} {s : ι}

/-- The sweep comes to its end, frees each expiring session once, and the table keeps the other
pairs. -/
def SweptCleanly (table : List (List ι)) (heap : ι → Session ι) (ports : Ports) : Prop :=
  ∃ st, alSessionTimeout table (Sweep.start table heap ports) = some st ∧
    st.freed.Nodup ∧ (∀ x, x ∈ st.freed ↔ x ∈ table.flatten ∧ idle heap x ≤ 2) ∧
    st.table table = table.map (fun bucket => bucket.filter fun x => decide (2 < idle heap x)) ∧
    Paired (st.table table) st.heap

def passed (heap : ι → Session ι) (before : List ι) (x : ι) : ℕ :=
  (if x ∈ before then 1 else 0) + if (heap x).up ∈ before then 1 else 0

structure Swept (table : List (List ι)) (heap : ι → Session ι) (before : List ι) (st : Sweep ι) :
    Prop where
  linked : ∀ x ∈ table.flatten,
    (st.linked x = true ↔ passed heap before x = 0 ∨ passed heap before x < idle heap x)
  up : ∀ x, (st.heap x).up = (heap x).up
  stout : ∀ x ∈ table.flatten, st.linked x = true →
    (st.heap x).stout = (heap x).stout - passed heap before x
  nodup : st.freed.Nodup
  freed : ∀ x, x ∈ st.freed ↔ x ∈ table.flatten ∧ st.linked x = false

variable {x : ι} {st' : Sweep ι}

theorem Paired.passed_up (h : Paired table heap) (hx : x ∈ table.flatten)
    (before : List ι) : passed heap before (heap x).up = passed heap before x := by
  unfold passed
  rw [h.back x hx, Nat.add_comm]

theorem Paired.passed_snoc (h : Paired table heap) (hs : s ∈ table.flatten)
    (hx : x ∈ table.flatten) (hnew : s ∉ before) :
    passed heap (before ++ [s]) x =
      if x = s ∨ x = (heap s).up then passed heap before x + 1 else passed heap before x := by
  have hup : (heap x).up = s ↔ x = (heap s).up :=
    ⟨fun he => by rw [← he, h.back x hx], fun he => by rw [he, h.back s hs]⟩
  have hself := h.ne s hs
  by_cases hxs : x = s
  · subst hxs
    simp [passed, hnew, hself, Nat.add_comm]
  · by_cases hxu : x = (heap s).up
    · simp [passed, hnew, hself, hxu, h.back s hs]
    · have hne : (heap x).up ≠ s := fun he => hxu (hup.mp he)
      simp [passed, hxs, hxu, hne]

theorem countDown_up (heap : ι → Session ι) (s x : ι) : (countDown heap s x).up = (heap x).up := by
  unfold countDown
  split <;> rfl

section Visits
variable (hp : Paired table heap) (h : Swept table heap before st) (hs : s ∈ table.flatten)
include hp h hs

theorem Swept.linked_up : st.linked (heap s).up = st.linked s := by
  have hiff := (h.linked s hs).trans
    ((h.linked _ (hp.mem s hs)).trans (by rw [hp.passed_up hs, hp.idle_up hs])).symm
  exact (Bool.eq_iff_iff.mpr hiff).symm

variable (hnew : s ∉ before)
include hnew

theorem Swept.skip (hl : st.linked s = false) :
    Swept table heap (before ++ [s]) st := by
  have hgone : ∀ x, x = s ∨ x = (heap s).up → x ∈ table.flatten ∧ st.linked x = false := by
    rintro x (rfl | rfl)
    · exact ⟨hs, hl⟩
    · exact ⟨hp.mem s hs, by rw [h.linked_up hp hs, hl]⟩
  refine ⟨?_, h.up, ?_, h.nodup, h.freed⟩
  · intro x hx
    rw [hp.passed_snoc hs hx hnew]
    split
    · rename_i hxs
      have hnot := (hgone x hxs).2
      have hbefore := h.linked x hx
      rw [hnot] at hbefore ⊢
      simp only [Bool.false_eq_true, false_iff, not_or] at hbefore ⊢
      omega
    · exact h.linked x hx
  · intro x hx hlx
    rw [hp.passed_snoc hs hx hnew, if_neg]
    · exact h.stout x hx hlx
    · intro hxs
      rw [(hgone x hxs).2] at hlx
      cases hlx

variable (hl : st.linked s = true)
include hl

theorem Swept.counted {x : ι} (hx : x ∈ table.flatten) (hlx : st.linked x = true) :
    (countDown (countDown st.heap s) (heap s).up x).stout =
      (heap x).stout - passed heap (before ++ [s]) x := by
  have hne := hp.ne s hs
  rw [hp.passed_snoc hs hx hnew]
  unfold countDown
  by_cases hxs : x = s
  · simp [hxs, hne.symm, h.stout s hs hl, Nat.sub_sub]
  · by_cases hxu : x = (heap s).up
    · simp [hxu, hne, h.stout _ (hp.mem s hs) (hxu ▸ hlx), Nat.sub_sub]
    · simp [hxs, hxu, h.stout x hx hlx]

theorem Swept.expires_iff :
    ((countDown (countDown st.heap s) (heap s).up s).stout = 0 ∧
      (countDown (countDown st.heap s) (heap s).up (heap s).up).stout = 0) ↔
        idle heap s ≤ passed heap before s + 1 := by
  have hlu : st.linked (heap s).up = true := by rw [h.linked_up hp hs, hl]
  rw [h.counted hp hs hnew hl hs hl, h.counted hp hs hnew hl (hp.mem s hs) hlu,
    hp.passed_up hs, hp.passed_snoc hs hs hnew, if_pos (.inl rfl)]
  unfold idle
  omega

theorem Swept.visit_keep (hlive : passed heap before s + 1 < idle heap s) (t : Option ι) :
    ∃ st', visit s t st = some st' ∧ Swept table heap (before ++ [s]) st' := by
  have hnot := (h.expires_iff hp hs hnew hl).not.mpr (Nat.not_le.mpr hlive)
  refine ⟨{ st with heap := countDown (countDown st.heap s) (heap s).up }, ?_, ?_, ?_, ?_, h.nodup,
    h.freed⟩
  · simp only [visit, h.up]
    exact if_neg hnot
  · intro x hx
    rw [hp.passed_snoc hs hx hnew]
    split
    · rename_i hxs
      have hsame : st.linked x = true ∧ passed heap before x = passed heap before s ∧
          idle heap x = idle heap s := by
        rcases hxs with rfl | rfl
        · exact ⟨hl, rfl, rfl⟩
        · exact ⟨by rw [h.linked_up hp hs, hl], hp.passed_up hs before, hp.idle_up hs⟩
      rw [hsame.2.1, hsame.2.2]
      exact iff_of_true hsame.1 (.inr hlive)
    · exact h.linked x hx
  · intro x
    rw [countDown_up, countDown_up, h.up]
  · intro x hx hlx
    exact h.counted hp hs hnew hl hx hlx

theorem Swept.visit_expire (hexp : idle heap s ≤ passed heap before s + 1) {t : Option ι}
    (ht : t ≠ some (heap s).up) : ∃ st', visit s t st = some st' ∧ Swept table heap (before ++ [s]) st' := by
  have hlu : st.linked (heap s).up = true := by rw [h.linked_up hp hs, hl]
  have hzero := (h.expires_iff hp hs hnew hl).mpr hexp
  have hstay : ¬ (st.linked (heap s).up = false ∨ t = some (heap s).up) := by simp [hlu, ht]
  have hnf : ∀ x, st.linked x = true → x ∉ st.freed := by
    intro x hlx hx
    rw [((h.freed x).mp hx).2] at hlx
    cases hlx
  refine ⟨_, by simp only [visit, h.up]; rw [if_pos hzero, if_neg hstay], ?_, ?_, ?_, ?_, ?_⟩
  · intro x hx
    simp only [unlinkFree]
    rw [hp.passed_snoc hs hx hnew]
    by_cases hxu : x = (heap s).up
    · simp only [hxu, or_true, if_true, Bool.false_eq_true, false_iff, hp.passed_up hs, hp.idle_up hs]
      omega
    · by_cases hxs : x = s
      · simp only [hxs, true_or, if_true, if_neg (hp.ne s hs).symm, Bool.false_eq_true, false_iff]
        omega
      · simp only [hxs, hxu, or_self, if_false]
        exact h.linked x hx
  · intro x
    simp only [unlinkFree]
    rw [countDown_up, countDown_up, h.up]
  · intro x hx hlx
    simp only [unlinkFree] at hlx ⊢
    split at hlx
    · cases hlx
    · split at hlx
      · cases hlx
      · exact h.counted hp hs hnew hl hx hlx
  · simp only [unlinkFree, List.nodup_append, List.nodup_singleton, List.mem_append,
      List.mem_singleton]
    refine ⟨⟨h.nodup, trivial, ?_⟩, trivial, ?_⟩
    · rintro a ha b rfl rfl
      exact hnf _ hl ha
    · rintro a (ha | rfl) b rfl
      · rintro rfl
        exact hnf _ hlu ha
      · exact (hp.ne _ hs).symm
  · intro x
    simp only [unlinkFree, List.mem_append, List.mem_singleton, h.freed x]
    by_cases hxu : x = (heap s).up
    · simp [hxu, hp.mem s hs]
    · by_cases hxs : x = s
      · simp [hxs, hs]
      · simp [hxs, hxu]

theorem Swept.visit_freed (hexp : idle heap s ≤ passed heap before s + 1) :
    visit s (some (heap s).up) st = none := by
  have hzero := (h.expires_iff hp hs hnew hl).mpr hexp
  simp only [visit, h.up]
  rw [if_pos hzero, if_pos (.inr trivial)]

omit hnew in
theorem Swept.next_iff {rest : List ι} (hrest : ∀ x ∈ rest, x ∈ table.flatten ∧ x ∉ before) :
    rest.find? st.linked = some (heap s).up ↔
      ∃ mid tail, rest = mid ++ (heap s).up :: tail ∧
        ∀ x ∈ mid, idle heap x ≤ 1 ∧ (heap x).up ∈ before := by
  have hgone : ∀ x ∈ rest, st.linked x = false ↔ idle heap x ≤ 1 ∧ (heap x).up ∈ before := by
    intro x hx
    obtain ⟨hmem, hnb⟩ := hrest x hx
    rw [← Bool.not_eq_true, h.linked x hmem, passed, if_neg hnb]
    split
    · rename_i hup
      simp only [hup, and_true]
      omega
    · rename_i hup
      simp [hup]
  rw [List.find?_eq_some_iff_append]
  constructor
  · rintro ⟨_, mid, tail, rfl, hmid⟩
    refine ⟨mid, tail, rfl, ?_⟩
    intro x hx
    exact (hgone x (by simp [hx])).mp (by simpa using hmid x hx)
  · rintro ⟨mid, tail, rfl, hmid⟩
    refine ⟨by rw [h.linked_up hp hs, hl], mid, tail, rfl, ?_⟩
    intro x hx
    simpa using (hgone x (by simp [hx])).mpr (hmid x hx)

end Visits

theorem Swept.bucket (hp : Paired table heap) {bucket : List ι} (h : Swept table heap before st)
    (hmem : ∀ x ∈ bucket, x ∈ table.flatten ∧ x ∉ before) (hnodup : bucket.Nodup) :
    (HazardIn heap before bucket → sweepBucket bucket st = none) ∧
      (¬ HazardIn heap before bucket →
        ∃ st', sweepBucket bucket st = some st' ∧ Swept table heap (before ++ bucket) st') := by
  induction bucket generalizing before st with
  | nil =>
    refine ⟨?_, fun _ => ⟨st, rfl, by simpa using h⟩⟩
    rintro ⟨pre, x, rest, heq, _⟩
    simp at heq
  | cons s rest ih =>
    rw [List.forall_mem_cons] at hmem
    rw [List.nodup_cons] at hnodup
    obtain ⟨⟨hs, hnew⟩, hrest⟩ := hmem
    have hafter : ∀ x ∈ rest, x ∈ table.flatten ∧ x ∉ before ++ [s] := by
      intro x hx
      refine ⟨(hrest x hx).1, ?_⟩
      simp only [List.mem_append, List.mem_singleton, not_or]
      exact ⟨(hrest x hx).2, fun he => hnodup.1 (he ▸ hx)⟩
    have hnext {st' : Sweep ι} (h' : Swept table heap (before ++ [s]) st') :=
      ih h' hafter hnodup.2
    have hzero (hup : (heap s).up ∈ rest) : passed heap before s = 0 := by
      rw [passed, if_neg hnew, if_neg (hrest _ hup).2]
    rw [hazardIn_cons]
    cases hl : st.linked s with
    | false =>
      have hno : ¬ HazardAt heap before rest s := by
        rintro ⟨_, mid, tail, rfl, _⟩
        have hlinked := (h.linked s hs).mpr (.inl (hzero (by simp)))
        rw [hl] at hlinked
        cases hlinked
      simp only [hno, false_or, sweepBucket, hl, Bool.false_eq_true, if_false]
      simpa using hnext (h.skip hp hs hnew hl)
    | true =>
      simp only [sweepBucket, hl, if_true]
      by_cases hz : HazardAt heap before rest s
      · refine ⟨fun _ => ?_, fun hno => absurd (.inl hz) hno⟩
        rw [(h.next_iff hp hs hl hrest).mpr hz.2,
          h.visit_freed hp hs hnew hl (hz.1.trans (Nat.le_add_left 1 _)), Option.bind_none]
      · have hvisit : ∃ st', visit s (rest.find? st.linked) st = some st' ∧
            Swept table heap (before ++ [s]) st' := by
          rcases Nat.lt_or_ge (passed heap before s + 1) (idle heap s) with hlive | hexp
          · exact h.visit_keep hp hs hnew hl hlive _
          · refine h.visit_expire hp hs hnew hl hexp fun hfind => hz ⟨?_, ?_⟩
            · rw [hzero (List.mem_of_find?_eq_some hfind)] at hexp
              exact hexp
            · exact (h.next_iff hp hs hl hrest).mp hfind
        obtain ⟨st', hv, h'⟩ := hvisit
        simp only [hz, false_or, hv, Option.bind_some]
        simpa using hnext h'

theorem Swept.rest_of_table (hp : Paired table heap) (rest : List (List ι))
    (h : Swept table heap before st) (hsplit : table.flatten = before ++ rest.flatten) :
    ((∃ pre b post, rest = pre ++ b :: post ∧ HazardIn heap (before ++ pre.flatten) b) →
        alSessionTimeout rest st = none) ∧
      ((¬ ∃ pre b post, rest = pre ++ b :: post ∧ HazardIn heap (before ++ pre.flatten) b) →
        ∃ st', alSessionTimeout rest st = some st' ∧ Swept table heap table.flatten st') := by
  induction rest generalizing before st with
  | nil =>
    refine ⟨?_, fun _ => ⟨st, rfl, by simpa [hsplit] using h⟩⟩
    rintro ⟨pre, b, post, heq, _⟩
    simp at heq
  | cons bucket rest ih =>
    rw [List.flatten_cons] at hsplit
    have hnodup := hp.nodup
    rw [hsplit, List.nodup_append, List.nodup_append] at hnodup
    obtain ⟨_, ⟨hbucket, _, _⟩, hdisjoint⟩ := hnodup
    have hmem : ∀ x ∈ bucket, x ∈ table.flatten ∧ x ∉ before := by
      intro x hx
      refine ⟨by simp [hsplit, hx], ?_⟩
      intro hb
      exact hdisjoint x hb x (by simp [hx]) rfl
    obtain ⟨hbad, hgood⟩ := h.bucket hp hmem hbucket
    rw [hazard_cons]
    simp only [alSessionTimeout]
    by_cases hz : HazardIn heap before bucket
    · refine ⟨fun _ => by rw [hbad hz, Option.bind_none], fun hno => absurd (.inl hz) hno⟩
    · obtain ⟨st', hb, h'⟩ := hgood hz
      simp only [hz, false_or, hb, Option.bind_some]
      exact ih h' (by rw [hsplit, List.append_assoc])

theorem Swept.start (table : List (List ι)) (heap : ι → Session ι) (ports : Ports) :
    Swept table heap [] (Sweep.start table heap ports) where
  linked x hx := by
    simp only [Sweep.start, passed, List.not_mem_nil, if_false, decide_eq_true hx, true_or]
  up _ := rfl
  stout x _ _ := by simp [Sweep.start, passed]
  nodup := .nil
  freed x := by simp [Sweep.start]

theorem Swept.linked_end (hp : Paired table heap) (h : Swept table heap table.flatten st)
    (hx : x ∈ table.flatten) : st.linked x = decide (2 < idle heap x) := by
  rw [Bool.eq_iff_iff, h.linked x hx, passed, if_pos hx, if_pos (hp.mem x hx)]
  simp

theorem Swept.paired_end (hp : Paired table heap) (h : Swept table heap table.flatten st) :
    Paired (st.table table) st.heap where
  nodup := by
    have hsub : (st.table table).flatten = table.flatten.filter st.linked := by
      rw [Sweep.table, List.filter_flatten]
    rw [hsub]
    exact hp.nodup.filter _
  mem x hx := by
    obtain ⟨hx, hl⟩ := mem_flatten_filter.mp hx
    rw [h.up]
    exact mem_flatten_filter.mpr ⟨hp.mem x hx, by rw [h.linked_up hp hx, hl]⟩
  back x hx := by
    rw [h.up, h.up]
    exact hp.back x (mem_flatten_filter.mp hx).1
  ne x hx := by
    rw [h.up]
    exact hp.ne x (mem_flatten_filter.mp hx).1

theorem Swept.clean (hp : Paired table heap) (h : Swept table heap table.flatten st) :
    st.freed.Nodup ∧ (∀ x, x ∈ st.freed ↔ x ∈ table.flatten ∧ idle heap x ≤ 2) ∧
      st.table table = table.map (fun bucket => bucket.filter fun x => decide (2 < idle heap x)) ∧
      Paired (st.table table) st.heap := by
  refine ⟨h.nodup, fun x => ?_, ?_, h.paired_end hp⟩
  · rw [h.freed]
    refine and_congr_right fun hx => ?_
    rw [h.linked_end hp hx]
    simp
  · refine List.map_congr_left fun bucket hb => List.filter_congr fun x hx => ?_
    exact h.linked_end hp (List.mem_flatten.mpr ⟨bucket, hb, hx⟩)

theorem Swept.of_eq_some (hp : Paired table heap) {ports : Ports}
    (h : alSessionTimeout table (Sweep.start table heap ports) = some st) :
    Swept table heap table.flatten st := by
  obtain ⟨hbad, hgood⟩ := (Swept.start table heap ports).rest_of_table hp table rfl
  by_cases hz : ∃ pre b post, table = pre ++ b :: post ∧ HazardIn heap ([] ++ pre.flatten) b
  · rw [hbad hz] at h
    cases h
  · obtain ⟨st', hst', hswept⟩ := hgood hz
    cases h.symm.trans hst'
    exact hswept

theorem Swept.of_not_hazard (hp : Paired table heap) (ports : Ports) (h : ¬ Hazard heap table) :
    ∃ st, alSessionTimeout table (Sweep.start table heap ports) = some st ∧
      Swept table heap table.flatten st := by
  obtain ⟨-, hgood⟩ := (Swept.start table heap ports).rest_of_table hp table rfl
  exact hgood h

/-- A sweep is clean exactly when no session expires with its partner next in line. -/
theorem sweptCleanly_iff (hp : Paired table heap) (ports : Ports) :
    SweptCleanly table heap ports ↔ ¬ Hazard heap table := by
  constructor
  · rintro ⟨st, hst, _⟩ hz
    have hbad := ((Swept.start table heap ports).rest_of_table hp table rfl).1 hz
    rw [hst] at hbad
    cases hbad
  · intro hz
    obtain ⟨st, hst, h⟩ := Swept.of_not_hazard hp ports hz
    exact ⟨st, hst, h.clean hp⟩

theorem onlyStout_countDown (heap : ι → Session ι) (s : ι) : OnlyStout heap (countDown heap s) := by
  intro x
  rw [countDown]
  split
  · exact ⟨_, rfl⟩
  · exact ⟨_, rfl⟩

theorem onlyStout_visit {t : Option ι} (h : visit s t st = some st') :
    OnlyStout st.heap st'.heap := by
  have hcount := (onlyStout_countDown st.heap s).trans
    (onlyStout_countDown (countDown st.heap s) (st.heap s).up)
  simp only [visit] at h
  split at h
  · split at h
    · cases h
    · cases h
      exact hcount
  · cases h
    exact hcount

theorem onlyStout_sweepBucket {bucket : List ι}
    (h : sweepBucket bucket st = some st') : OnlyStout st.heap st'.heap := by
  induction bucket generalizing st with
  | nil =>
    cases h
    exact .refl _
  | cons s rest ih =>
    rw [sweepBucket] at h
    split at h
    · obtain ⟨st₁, hvisit, hrest⟩ := Option.bind_eq_some_iff.mp h
      exact (onlyStout_visit hvisit).trans (ih hrest)
    · exact ih h

theorem onlyStout_timeout (h : alSessionTimeout table st = some st') :
    OnlyStout st.heap st'.heap := by
  induction table generalizing st with
  | nil =>
    cases h
    exact .refl _
  | cons bucket table ih =>
    obtain ⟨st₁, hbucket, hrest⟩ := Option.bind_eq_some_iff.mp h
    exact (onlyStout_sweepBucket hbucket).trans (ih hrest)

def idleSession (up stout : ℕ) : Session ℕ :=
  { isUps := false, portAlloc := false, proto := 6, isDr := false, ftype := 3, inType := false,
    portid := 0, stout, up, localAddr := ⟨0, 0⟩, remoteAddr := ⟨0, 0⟩, localPort := 0, remotePort := 0,
    toHaddr := 0, fromHaddr := 0, fid := 1, mid := 1 }

def idleHeap (stout : ℕ) (x : ℕ) : Session ℕ := idleSession (x ^^^ 1) stout

theorem paired_idleHeap : Paired [[0, 2], [1, 3]] (idleHeap 1) :=
  ⟨by decide, by decide, by decide, by decide⟩

theorem sweptCleanly_apart : SweptCleanly [[0, 2], [1, 3]] (idleHeap 1) ⟨[], []⟩ :=
  (sweptCleanly_iff paired_idleHeap ⟨[], []⟩).mpr (not_hazard_of_apart (by decide))

theorem partners_in_one_bucket :
    Paired [[0, 1]] (idleHeap 1) ∧ ¬ SweptCleanly [[0, 1]] (idleHeap 1) ⟨[], []⟩ := by
  refine ⟨⟨by decide, by decide, by decide, by decide⟩, ?_⟩
  rintro ⟨st, hst, _⟩
  have hnone : (alSessionTimeout [[0, 1]] (Sweep.start [[0, 1]] (idleHeap 1) ⟨[], []⟩)).isNone = true := by
    decide +kernel
  rw [hst] at hnone
  cases hnone

end Sweep

end Aware.Sessions
