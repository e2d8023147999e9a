import Mathlib.Data.List.Basic
import Mathlib.Data.List.Count
import Mathlib.Data.Nat.ModEq
import Mathlib.Tactic.ByContra

/-!
# The polling loop of a worker

`al_init_port` fills the table of receive queues, and each pass of `al_work_proc` goes through every
`g_work_thread_count`-th entry of it with an index of eight bits.
-/
namespace Aware.Worker

inductive PortType where
  | kni
  | vport
  | physical
deriving DecidableEq, Repr

structure DevQueue where
  portid : BitVec 12
  queueid : BitVec 8
  type : PortType
deriving DecidableEq, Repr

def queue (port : ℕ) (type : PortType) (k : ℕ) : DevQueue :=
  ⟨BitVec.ofNat 12 port, BitVec.ofNat 8 k, type⟩

/-- The entries of one port: its receive queues, a virtual queue for each worker, and one of the
kernel interface. -/
def portQueues (threads port : ℕ) (qcnt : UInt8) : List DevQueue :=
  (List.range qcnt.toNat).map (queue port .physical) ++ (List.range threads).map (queue port .vport) ++
    [queue port .kni 0]

/-- `al_init_port`, with every call for a device succeeding, on ports with these numbers of
receive queues. -/
def alInitPort (threads : ℕ) (qcnts : List UInt8) : List DevQueue :=
  (qcnts.mapIdx fun i qcnt => portQueues threads i qcnt).flatten

def queuePoolSize : ℕ := 0x1fff * 128

/-- The pass of `al_work_proc` from index `i` on: the entries it reads, in order. -/
def pollPass (maxQueue threads : ℕ) : ℕ → UInt8 → Option (List ℕ)
  | 0, _ => none
  | fuel + 1, i =>
    if i.toNat < maxQueue then
      (pollPass maxQueue threads fuel (i + UInt8.ofNat threads)).map (i.toNat :: ·)
    else some []

/-- Every worker ends its pass, and entry `i` is read once, by worker `i % threads`. -/
def CoversQueues (maxQueue threads : ℕ) : Prop :=
  ∀ w < threads, ∃ fuel visits, pollPass maxQueue threads fuel (UInt8.ofNat w) = some visits ∧
    ∀ i, visits.count i = if i < maxQueue ∧ i % threads = w then 1 else 0

section Pass
variable {maxQueue threads : ℕ}

theorem toNat_step (i : UInt8) (threads : ℕ) :
    (i + UInt8.ofNat threads).toNat = (i.toNat + threads) % 256 := by
  rw [UInt8.toNat_add, UInt8.toNat_ofNat']
  omega

theorem pollPass_eq_none (maxQueue threads : ℕ) {S : ℕ → Prop} (hlt : ∀ a, S a → a < maxQueue)
    (hstep : ∀ a, S a → S ((a + threads) % 256)) (fuel : ℕ) {i : UInt8} (hi : S i.toNat) :
    pollPass maxQueue threads fuel i = none := by
  induction fuel generalizing i with
  | zero => rfl
  | succ fuel ih =>
    have hnext : S (i + UInt8.ofNat threads).toNat := by
      rw [toNat_step]
      exact hstep _ hi
    rw [pollPass, if_pos (hlt _ hi), ih hnext, Option.map_none]

theorem pollPass_succ {fuel : ℕ} {i : UInt8} {visits : List ℕ} (hi : i.toNat < maxQueue)
    (h : pollPass maxQueue threads fuel i = some visits) :
    ∃ fuel' rest, visits = i.toNat :: rest ∧
      pollPass maxQueue threads fuel' (i + UInt8.ofNat threads) = some rest := by
  cases fuel with
  | zero => cases h
  | succ fuel =>
    rw [pollPass, if_pos hi, Option.map_eq_some_iff] at h
    obtain ⟨rest, hrest, rfl⟩ := h
    exact ⟨fuel, rest, rfl, hrest⟩

theorem pollPass_closed {fuel : ℕ} {i : UInt8} {visits : List ℕ}
    (h : pollPass maxQueue threads fuel i = some visits) {a : ℕ} (ha : a ∈ visits)
    (hnext : (a + threads) % 256 < maxQueue) : (a + threads) % 256 ∈ visits := by
  induction visits generalizing fuel i with
  | nil => cases ha
  | cons v rest ih =>
    have hi : i.toNat < maxQueue := by
      by_contra hout
      cases fuel with
      | zero => cases h
      | succ fuel =>
        rw [pollPass, if_neg hout] at h
        cases h
    obtain ⟨fuel', rest', hvisits, hrest⟩ := pollPass_succ hi h
    obtain ⟨rfl, rfl⟩ := List.cons.inj hvisits
    rcases List.mem_cons.mp ha with rfl | ha
    · rw [← toNat_step] at hnext ⊢
      obtain ⟨_, rest', rfl, _⟩ := pollPass_succ hnext hrest
      exact List.mem_cons_of_mem _ List.mem_cons_self
    · exact List.mem_cons_of_mem _ (ih hrest ha)

theorem add_le_of_mod_eq {i j : ℕ} (h : j % threads = i % threads) (hlt : i < j) : i + threads ≤ j := by
  have hdvd : threads ∣ j - i := (Nat.modEq_iff_dvd' hlt.le).mp h.symm
  have hle := Nat.le_of_dvd (by omega) hdvd
  omega

theorem pollPass_some (hpos : 0 < threads) (hmax : maxQueue + threads ≤ 256) {i : ℕ}
    (hi : i < maxQueue + threads) :
    ∃ fuel visits, pollPass maxQueue threads fuel (UInt8.ofNat i) = some visits ∧
      ∀ j, visits.count j = if i ≤ j ∧ j < maxQueue ∧ j % threads = i % threads then 1 else 0 := by
  have hnat : (UInt8.ofNat i).toNat = i := by
    rw [UInt8.toNat_ofNat']
    exact Nat.mod_eq_of_lt (by omega)
  by_cases hlt : i < maxQueue
  · obtain ⟨fuel, visits, hvisits, hcount⟩ := pollPass_some hpos hmax (i := i + threads) (by omega)
    refine ⟨fuel + 1, i :: visits, ?_, fun j => ?_⟩
    · have hstep : UInt8.ofNat i + UInt8.ofNat threads = UInt8.ofNat (i + threads) :=
        (UInt8.ofNat_add i threads).symm
      rw [pollPass, hnat, if_pos hlt, hstep, hvisits, Option.map_some]
    · by_cases hij : i = j
      · subst hij
        rw [List.count_cons_self, hcount, if_neg (by omega), if_pos ⟨Nat.le_refl i, hlt, rfl⟩]
      · have hiff : i + threads ≤ j ∧ j < maxQueue ∧ j % threads = i % threads ↔
            i ≤ j ∧ j < maxQueue ∧ j % threads = i % threads := by
          constructor
          · rintro ⟨hle, hj, hmod⟩
            exact ⟨by omega, hj, hmod⟩
          · rintro ⟨hle, hj, hmod⟩
            exact ⟨add_le_of_mod_eq hmod (by omega), hj, hmod⟩
        rw [List.count_cons_of_ne hij, hcount, Nat.add_mod_right, if_congr hiff rfl rfl]
  · refine ⟨1, [], ?_, fun j => ?_⟩
    · rw [pollPass, hnat, if_neg hlt]
    · rw [List.count_nil, if_neg (by omega)]
termination_by maxQueue - i

theorem CoversQueues.of_add_le (hpos : 0 < threads) (hmax : maxQueue + threads ≤ 256) :
    CoversQueues maxQueue threads := by
  intro w hw
  obtain ⟨fuel, visits, hvisits, hcount⟩ := pollPass_some hpos hmax (i := w) (by omega)
  refine ⟨fuel, visits, hvisits, fun i => ?_⟩
  rw [hcount, Nat.mod_eq_of_lt hw]
  apply if_congr _ rfl rfl
  constructor
  · rintro ⟨-, hi, hmod⟩
    exact ⟨hi, hmod⟩
  · rintro ⟨hi, hmod⟩
    exact ⟨by rw [← hmod]; exact Nat.mod_le i threads, hi, hmod⟩

theorem CoversQueues.max_lt (h : CoversQueues maxQueue threads) (hpos : 0 < threads) : maxQueue < 256 := by
  by_contra hle
  obtain ⟨fuel, visits, hvisits, -⟩ := h 0 hpos
  have hnone := pollPass_eq_none maxQueue threads (S := fun a => a < 256)
    (fun a ha => by omega) (fun a _ => Nat.mod_lt _ (by decide)) fuel (i := UInt8.ofNat 0) (UInt8.toNat_lt _)
  rw [hnone] at hvisits
  cases hvisits

theorem CoversQueues.threads_lt (h : CoversQueues maxQueue threads) (hmax : 0 < maxQueue) :
    threads < 256 := by
  by_contra hle
  rcases Nat.eq_or_lt_of_le (Nat.le_of_not_lt hle) with rfl | hlt
  · -- the index comes back to where it was
    obtain ⟨fuel, visits, hvisits, -⟩ := h 0 (by decide)
    have hnone := pollPass_eq_none maxQueue 256 (S := fun a => a = 0)
      (fun a ha => by omega) (fun a ha => by rw [ha]) fuel (i := UInt8.ofNat 0) rfl
    rw [hnone] at hvisits
    cases hvisits
  · -- worker 256 has the index of worker 0
    obtain ⟨fuel, visits, hvisits, hcount⟩ := h 256 hlt
    obtain ⟨_, rest, rfl, -⟩ := pollPass_succ (i := UInt8.ofNat 256) hmax hvisits
    have hzero := hcount 0
    rw [Nat.zero_mod, if_neg (by omega)] at hzero
    exact absurd (List.count_pos_iff.mpr List.mem_cons_self) (Nat.not_lt_of_le (Nat.le_of_eq hzero))

theorem CoversQueues.add_le (h : CoversQueues maxQueue threads) (hpos : 0 < threads)
    (hmax : 0 < maxQueue) : maxQueue + threads ≤ 256 := by
  have hm := h.max_lt hpos
  have ht := h.threads_lt hmax
  by_contra hgt
  have hw : (maxQueue - 1) % threads < threads := Nat.mod_lt _ hpos
  obtain ⟨fuel, visits, hvisits, hcount⟩ := h _ hw
  have hlast : maxQueue - 1 ∈ visits := by
    rw [← List.count_pos_iff, hcount, if_pos ⟨by omega, rfl⟩]
    exact Nat.one_pos
  have hwrap : (maxQueue - 1 + threads) % 256 < maxQueue := by omega
  have hown : (maxQueue - 1 + threads) % 256 % threads = (maxQueue - 1) % threads := by
    have hmem := List.count_pos_iff.mpr (pollPass_closed hvisits hlast hwrap)
    rw [hcount] at hmem
    by_contra hother
    rw [if_neg fun hand => hother hand.2] at hmem
    exact Nat.lt_irrefl 0 hmem
  have hnone := pollPass_eq_none maxQueue threads
    (S := fun a => a < maxQueue ∧ a % threads = (maxQueue - 1) % threads) (fun a ha => ha.1) ?_ fuel
    (i := UInt8.ofNat ((maxQueue - 1) % threads)) ?_
  · rw [hnone] at hvisits
    cases hvisits
  · rintro a ⟨ha, hmod⟩
    by_cases hnext : a + threads < maxQueue
    · rw [Nat.mod_eq_of_lt (by omega)]
      exact ⟨hnext, by rw [Nat.add_mod_right, hmod]⟩
    · -- only the last entry of this worker is that close to the end
      have hlast : a = maxQueue - 1 := by
        by_contra hne
        have hle := add_le_of_mod_eq hmod.symm (by omega)
        omega
      rw [hlast]
      exact ⟨hwrap, hown⟩
  · have hle := Nat.mod_le (maxQueue - 1) threads
    have hnat : (UInt8.ofNat ((maxQueue - 1) % threads)).toNat = (maxQueue - 1) % threads := by
      rw [UInt8.toNat_ofNat']
      exact Nat.mod_eq_of_lt (by omega)
    change _ < _ ∧ _ = _
    rw [hnat, Nat.mod_mod]
    exact ⟨by omega, rfl⟩

/-- A pass of all workers goes through the queues as meant exactly when no index wraps round. -/
theorem covers_queues_iff (maxQueue : ℕ) {threads : ℕ} (hpos : 1 ≤ threads) :
    CoversQueues maxQueue threads ↔ maxQueue = 0 ∨ maxQueue + threads ≤ 256 := by
  constructor
  · intro h
    rcases Nat.eq_zero_or_pos maxQueue with hzero | hmax
    · exact .inl hzero
    · exact .inr (h.add_le hpos hmax)
  · rintro (rfl | hmax)
    · intro w _
      refine ⟨1, [], rfl, fun i => ?_⟩
      rw [List.count_nil, if_neg (by omega)]
    · exact .of_add_le hpos hmax

end Pass

theorem small_table_covered : 1 ≤ 4 ∧ (alInitPort 4 [8, 8]).length = 26 ∧
    CoversQueues (alInitPort 4 [8, 8]).length 4 :=
  ⟨by decide, by decide, (covers_queues_iff _ (by decide)).mpr (.inr (by decide))⟩

theorem large_table_not_covered : (alInitPort 64 [128]).length ≤ queuePoolSize ∧
    ¬ CoversQueues (alInitPort 64 [128]).length 64 := by
  have hlen : (alInitPort 64 [128]).length = 193 := by decide +kernel
  rw [hlen]
  refine ⟨by decide, fun h => ?_⟩
  have hle := h.add_le (by decide) (by decide)
  omega

end Aware.Worker
