import Mathlib.Data.List.Basic
import Mathlib.Data.Nat.ModEq

/-!
# Who uses which ring

The rings are made for one producer and one consumer each. Which worker calls which of the two ends
is spread over their creation, the write functions of the devices and the input functions.
-/
namespace Aware.Rings

inductive Kind where
  | physical
  | vport
  | kni
deriving DecidableEq, Repr

inductive Ring where
  | out (kind : Kind) (portid : UInt8) (t : ℕ)
  | thread (d s : ℕ)
deriving DecidableEq, Repr

inductive Access where
  | enqueue (r : Ring)
  | dequeue (r : Ring)
deriving DecidableEq, Repr

structure ThreadInfo where
  used : Bool
  lcoreid : UInt8
deriving DecidableEq, Repr

/-- The lcores as the environment has them, and `qcnt` of the devices. -/
structure Machine where
  enabled : List Bool
  master : ℕ
  qcnt : Kind → UInt8 → UInt8

section Creation

/-- The loop of `al_init_dpdk` over the lcores, from lcore `i` on with `k` workers so far. -/
def threadInfos (master : ℕ) : ℕ → ℕ → List Bool → List ThreadInfo
  | _, _, [] => []
  | i, k, e :: es =>
    if e = false ∨ i = master then ⟨i == master, 0⟩ :: threadInfos master (i + 1) k es
    else ⟨true, UInt8.ofNat k⟩ :: threadInfos master (i + 1) (k + 1) es

def countWorkers (master : ℕ) : ℕ → List Bool → ℕ
  | _, [] => 0
  | i, e :: es =>
    if e = false ∨ i = master then countWorkers master (i + 1) es
    else countWorkers master (i + 1) es + 1

def threadRings (count master : ℕ) : ℕ → ℕ → List ThreadInfo → List (ℕ × ℕ)
  | _, _, [] => []
  | i, j, info :: infos =>
    if count ≤ j then []
    else if i = master ∨ info.used = false then threadRings count master (i + 1) j infos
    else
      ((List.range count).filter fun k => info.lcoreid.toNat ≠ k).map (fun k => (info.lcoreid.toNat, k)) ++
        threadRings count master (i + 1) (j + 1) infos

def initPortDev (count : ℕ) (kind : Kind) (qcnt : UInt8) : List ℕ :=
  let t := match kind with
    | .vport => 0
    | .kni => qcnt.toNat
    | .physical => qcnt.toNat
  List.range' t (count - t)

end Creation

namespace Machine
variable (m : Machine)

def infos : List ThreadInfo :=
  threadInfos m.master 0 0 m.enabled

def workThreadCount : ℕ :=
  countWorkers m.master 0 m.enabled

def HasRing (d s : ℕ) : Prop :=
  (d, s) ∈ threadRings m.workThreadCount m.master 0 0 m.infos

instance (d s : ℕ) : Decidable (m.HasRing d s) :=
  inferInstanceAs (Decidable (_ ∈ _))

def Works (lcore : ℕ) (id : UInt8) : Prop :=
  lcore ≠ m.master ∧ m.infos[lcore]? = some ⟨true, id⟩

end Machine

/-- The turns of `for( q+=qcnt; q<count; q+=qcnt )`. -/
def strides (count qcnt : ℕ) : ℕ → ℕ → List ℕ
  | 0, _ => []
  | fuel + 1, q => if q < count then q :: strides count qcnt fuel (q + qcnt) else []

/-- Where a packet of `al_main_process` goes: to the thread that owns its session, or to a
device. -/
inductive Deed where
  | handOver (owner : UInt8)
  | toSwitch (portid : UInt8) (toKni : Bool)
deriving DecidableEq, Repr

structure Burst where
  deeds : List Deed
  toKni : Bool

structure Input where
  rings : ℕ → Option Burst
  own : Burst

inductive Read where
  | physical (portid : UInt8) (input : Option Input)
  | kni (portid : UInt8) (input : Option Input)
  | vport (queueid portid : UInt8) (any : Bool)

structure Round where
  reads : List Read
  ports : ℕ
  writes : ℕ → Input

namespace Machine
variable (m : Machine) (lcoreid : UInt8)

def burstWrite (kind : Kind) (portid : UInt8) : List Access :=
  let qcnt := m.qcnt kind portid
  if lcoreid < qcnt then
    (strides m.workThreadCount qcnt.toNat m.workThreadCount (lcoreid.toNat + qcnt.toNat)).map
      fun q => .dequeue (.out kind portid q)
  else [.enqueue (.out kind portid lcoreid.toNat)]

def portBurstWrite (portid : UInt8) : List Access :=
  m.burstWrite lcoreid .physical portid

def kniBurstWrite (portid : UInt8) : List Access :=
  m.burstWrite lcoreid .kni portid

def sendToSwitch (portid : UInt8) (toKni : Bool) : List Access :=
  if toKni then m.kniBurstWrite lcoreid portid else [.enqueue (.out .vport portid lcoreid.toNat)]

def deed : Deed → List Access
  | .handOver owner => [.enqueue (.thread owner.toNat lcoreid.toNat)]
  | .toSwitch portid toKni => m.sendToSwitch lcoreid portid toKni

def alMainProcess (portid : UInt8) (b : Burst) : List Access :=
  b.deeds.flatMap (m.deed lcoreid) ++ m.sendToSwitch lcoreid portid b.toKni

def vportBurstWrite (portid : UInt8) (input : Input) : List Access :=
  ((List.range m.workThreadCount).flatMap fun k =>
    if m.HasRing lcoreid.toNat k then
      .dequeue (.thread lcoreid.toNat k) ::
        ((input.rings k).map (m.alMainProcess lcoreid 0)).getD []
    else []) ++ m.alMainProcess lcoreid portid input.own

def read : Read → List Access
  | .physical portid input => (input.map (m.vportBurstWrite lcoreid portid)).getD []
  | .kni portid input => (input.map (m.vportBurstWrite lcoreid portid)).getD []
  | .vport queueid portid any =>
    .dequeue (.out .vport portid queueid.toNat) ::
      if any then m.portBurstWrite lcoreid portid else []

def alWorkProc (r : Round) : List Access :=
  r.reads.flatMap (m.read lcoreid) ++ (List.range r.ports).flatMap fun k =>
    m.portBurstWrite lcoreid (UInt8.ofNat k) ++
      m.vportBurstWrite lcoreid (UInt8.ofNat k) (r.writes k) ++ m.kniBurstWrite lcoreid (UInt8.ofNat k)

def Performs (a : Access) : Prop :=
  (∃ lcore, m.Works lcore lcoreid) ∧ ∃ r, a ∈ m.alWorkProc lcoreid r

end Machine

/-- Each ring has one producer and one consumer, and the rings that are used are there. -/
structure Disciplined (m : Machine) : Prop where
  distinct : ∀ lcore lcore' id, m.Works lcore id → m.Works lcore' id → lcore = lcore'
  created : ∀ kind portid t id, kind ≠ .vport → m.Performs id (.enqueue (.out kind portid t)) →
    t ∈ initPortDev m.workThreadCount kind (m.qcnt kind portid)
  producer : ∀ kind portid t id, kind ≠ .vport → m.Performs id (.enqueue (.out kind portid t)) →
    id.toNat = t
  consumer : ∀ kind portid t id, kind ≠ .vport → m.Performs id (.dequeue (.out kind portid t)) →
    id.toNat = t % (m.qcnt kind portid).toNat
  visited : ∀ kind portid t, kind ≠ .vport →
    t ∈ initPortDev m.workThreadCount kind (m.qcnt kind portid) →
      ∃ lcore id, m.Works lcore id ∧ id.toNat = t % (m.qcnt kind portid).toNat ∧
        .dequeue (.out kind portid t) ∈ m.burstWrite id kind portid ∧
          ∀ r, portid.toNat < r.ports → .dequeue (.out kind portid t) ∈ m.alWorkProc id r
  threadCreated : ∀ d s, d < m.workThreadCount → s < m.workThreadCount → d ≠ s → m.HasRing d s
  threadProducer : ∀ d s id, m.Performs id (.enqueue (.thread d s)) → id.toNat = s
  threadConsumer : ∀ d s id, m.Performs id (.dequeue (.thread d s)) → id.toNat = d
  threadVisited : ∀ d s, d < m.workThreadCount → s < m.workThreadCount → d ≠ s →
    ∃ lcore id, m.Works lcore id ∧ id.toNat = d ∧
      ∀ r, 0 < r.ports → .dequeue (.thread d s) ∈ m.alWorkProc id r

section Strides

theorem mem_strides {count qcnt : ℕ} (hq : 0 < qcnt) {fuel q t : ℕ} (hfuel : count ≤ fuel + q) :
    t ∈ strides count qcnt fuel q ↔ q ≤ t ∧ t < count ∧ t % qcnt = q % qcnt := by
  induction fuel generalizing q with
  | zero =>
    simp only [strides, List.not_mem_nil, false_iff]
    intro h
    omega
  | succ fuel ih =>
    rw [strides]
    split
    · next hlt =>
        rw [List.mem_cons, ih (by omega), Nat.add_mod_right]
        constructor
        · intro h
          rcases h with rfl | ⟨hle, hcount, hmod⟩
          · exact ⟨le_refl t, hlt, rfl⟩
          · exact ⟨by omega, hcount, hmod⟩
        · intro h
          obtain ⟨hle, hcount, hmod⟩ := h
          rcases Nat.lt_or_ge t (q + qcnt) with hnear | hfar
          · -- two numbers of one class that are less than `qcnt` apart
            left
            have hdvd : qcnt ∣ t - q := (Nat.modEq_iff_dvd' hle).mp hmod.symm
            have hzero := Nat.eq_zero_of_dvd_of_lt hdvd (by omega)
            omega
          · exact .inr ⟨hfar, hcount, hmod⟩
    · simp only [List.not_mem_nil, false_iff]
      intro h
      omega

end Strides

section Workers
variable {master : ℕ}
variable {i k : ℕ} {es : List Bool}

theorem master_of_skipped {infos : List ThreadInfo} {id : UInt8}
    (h : (⟨i == master, 0⟩ :: infos : List ThreadInfo)[0]? = some ⟨true, id⟩) : i + 0 = master := by
  have hused := congrArg ThreadInfo.used (Option.some.inj h)
  exact beq_iff_eq.mp hused

theorem worker_id {n : ℕ} {id : UInt8} (hn : i + n ≠ master)
    (h : (threadInfos master i k es)[n]? = some ⟨true, id⟩) :
    ∃ c < countWorkers master i es, id = UInt8.ofNat (k + c) := by
  induction es generalizing i k n with
  | nil => simp [threadInfos] at h
  | cons e es ih =>
    rw [threadInfos] at h
    rw [countWorkers]
    split at h
    · next hskip =>
        rw [if_pos hskip]
        cases n with
        | zero => exact absurd (master_of_skipped h) hn
        | succ n => exact ih (by omega) h
    · next hwork =>
        rw [if_neg hwork]
        cases n with
        | zero => exact ⟨0, by omega, by simpa using h.symm⟩
        | succ n =>
          obtain ⟨c, hc, hid⟩ := ih (by omega) h
          refine ⟨c + 1, by omega, ?_⟩
          rw [hid, Nat.add_right_comm, Nat.add_assoc]

theorem worker_unique {n n' : ℕ} {id : UInt8}
    (hfit : k + countWorkers master i es ≤ 256) (hn : i + n ≠ master) (hn' : i + n' ≠ master)
    (h : (threadInfos master i k es)[n]? = some ⟨true, id⟩)
    (h' : (threadInfos master i k es)[n']? = some ⟨true, id⟩) : n = n' := by
  induction es generalizing i k n n' with
  | nil => simp [threadInfos] at h
  | cons e es ih =>
    rw [threadInfos] at h h'
    rw [countWorkers] at hfit
    split at hfit
    · next hskip =>
        rw [if_pos hskip] at h h'
        cases n with
        | zero => exact absurd (master_of_skipped h) hn
        | succ n =>
          cases n' with
          | zero => exact absurd (master_of_skipped h') hn'
          | succ n' => exact congrArg (· + 1) (ih hfit (by omega) (by omega) h h')
    · next hwork =>
        rw [if_neg hwork] at h h'
        have hfirst {j : ℕ} (hj : i + (j + 1) ≠ master)
            (h : (threadInfos master (i + 1) (k + 1) es)[j]? = some ⟨true, id⟩) :
            UInt8.ofNat k ≠ id := by
          obtain ⟨c, hc, rfl⟩ := worker_id (by omega) h
          intro heq
          have hnat := congrArg UInt8.toNat heq
          rw [UInt8.toNat_ofNat', UInt8.toNat_ofNat'] at hnat
          omega
        cases n with
        | zero =>
          cases n' with
          | zero => rfl
          | succ n' => exact absurd (congrArg ThreadInfo.lcoreid (Option.some.inj h)) (hfirst hn' h')
        | succ n =>
          cases n' with
          | zero => exact absurd (congrArg ThreadInfo.lcoreid (Option.some.inj h')) (hfirst hn h)
          | succ n' => exact congrArg (· + 1) (ih (by omega) (by omega) (by omega) h h')

theorem worker_exists {c : ℕ} (hc : c < countWorkers master i es) :
    ∃ n, i + n ≠ master ∧ (threadInfos master i k es)[n]? = some ⟨true, UInt8.ofNat (k + c)⟩ := by
  induction es generalizing i k c with
  | nil => simp [countWorkers] at hc
  | cons e es ih =>
    rw [countWorkers] at hc
    rw [threadInfos]
    split at hc
    · next hskip =>
        obtain ⟨n, hn, h⟩ := ih (k := k) hc
        refine ⟨n + 1, by omega, ?_⟩
        rw [if_pos hskip]
        exact h
    · next hwork =>
        rw [if_neg hwork]
        cases c with
        | zero => exact ⟨0, fun h => hwork (.inr h), rfl⟩
        | succ c =>
          obtain ⟨n, hn, h⟩ := ih (k := k + 1) (Nat.lt_of_succ_lt_succ hc)
          refine ⟨n + 1, by omega, ?_⟩
          rw [List.getElem?_cons_succ, h]
          congr 3
          omega

theorem mem_threadRings {count : ℕ} (hcount : k + countWorkers master i es = count)
    {c s : ℕ} (hc : c < countWorkers master i es) (hs : s < count) (hne : (UInt8.ofNat (k + c)).toNat ≠ s) :
    ((UInt8.ofNat (k + c)).toNat, s) ∈ threadRings count master i k (threadInfos master i k es) := by
  induction es generalizing i k c with
  | nil => simp [countWorkers] at hc
  | cons e es ih =>
    have hgo : ¬ count ≤ k := by omega
    rw [threadInfos]
    rw [countWorkers] at hc hcount
    split at hc
    · next hskip =>
        rw [if_pos hskip] at hcount ⊢
        have hused : i = master ∨ (i == master) = false := by
          rw [beq_eq_false_iff_ne]
          exact em _
        rw [threadRings, if_neg hgo, if_pos hused]
        exact ih hcount hc hne
    · next hwork =>
        rw [if_neg hwork] at hcount ⊢
        have hused : ¬ (i = master ∨ true = false) := by
          simp only [Bool.true_eq_false, or_false]
          exact fun h => hwork (.inr h)
        rw [threadRings, if_neg hgo, if_neg hused, List.mem_append]
        cases c with
        | zero =>
          left
          rw [Nat.add_zero] at hne ⊢
          refine List.mem_map.mpr ⟨s, List.mem_filter.mpr ⟨List.mem_range.mpr hs, ?_⟩, rfl⟩
          exact decide_eq_true hne
        | succ c =>
          right
          have hshift : k + (c + 1) = k + 1 + c := by omega
          rw [hshift] at hne ⊢
          exact ih (by omega) (Nat.lt_of_succ_lt_succ hc) hne

end Workers

section Discipline
variable {m : Machine} {id : UInt8}

inductive Own (m : Machine) (id : UInt8) : Access → Prop where
  | write {kind : Kind} {portid : UInt8} {a : Access} (hkind : kind ≠ .vport)
      (h : a ∈ m.burstWrite id kind portid) : Own m id a
  | toVport (portid : UInt8) : Own m id (.enqueue (.out .vport portid id.toNat))
  | fromVport (portid : UInt8) (t : ℕ) : Own m id (.dequeue (.out .vport portid t))
  | hand (d : ℕ) : Own m id (.enqueue (.thread d id.toNat))
  | take (s : ℕ) : Own m id (.dequeue (.thread id.toNat s))

theorem own_sendToSwitch (portid : UInt8) (toKni : Bool) :
    ∀ a ∈ m.sendToSwitch id portid toKni, Own m id a := by
  intro a ha
  rw [Machine.sendToSwitch] at ha
  cases toKni with
  | true => exact .write (by decide) ha
  | false =>
    rw [List.mem_singleton.mp ha]
    exact .toVport portid

theorem own_alMainProcess (portid : UInt8) (b : Burst) :
    ∀ a ∈ m.alMainProcess id portid b, Own m id a := by
  rw [Machine.alMainProcess, List.forall_mem_append]
  refine ⟨?_, own_sendToSwitch portid b.toKni⟩
  intro a ha
  obtain ⟨d, -, had⟩ := List.mem_flatMap.mp ha
  cases d with
  | handOver owner =>
    rw [List.mem_singleton.mp had]
    exact .hand owner.toNat
  | toSwitch portid toKni => exact own_sendToSwitch portid toKni a had

theorem own_vportBurstWrite (portid : UInt8) (input : Input) :
    ∀ a ∈ m.vportBurstWrite id portid input, Own m id a := by
  rw [Machine.vportBurstWrite, List.forall_mem_append]
  refine ⟨?_, own_alMainProcess portid input.own⟩
  intro a ha
  obtain ⟨k, -, hak⟩ := List.mem_flatMap.mp ha
  split at hak
  · rcases List.mem_cons.mp hak with rfl | hburst
    · exact .take k
    · cases hin : input.rings k with
      | none => simp [hin] at hburst
      | some b =>
        rw [hin] at hburst
        exact own_alMainProcess 0 b a hburst
  · cases hak

theorem own_read (rd : Read) : ∀ a ∈ m.read id rd, Own m id a := by
  have hinput (portid : UInt8) (input : Option Input) :
      ∀ a ∈ (input.map (m.vportBurstWrite id portid)).getD [], Own m id a := by
    cases input with
    | none => exact fun a ha => absurd ha List.not_mem_nil
    | some input => exact own_vportBurstWrite portid input
  intro a ha
  cases rd with
  | physical portid input => exact hinput portid input a ha
  | kni portid input => exact hinput portid input a ha
  | vport queueid portid any =>
    rcases List.mem_cons.mp ha with rfl | hrest
    · exact .fromVport portid queueid.toNat
    · split at hrest
      · exact .write (by decide) hrest
      · cases hrest

theorem own_alWorkProc (r : Round) : ∀ a ∈ m.alWorkProc id r, Own m id a := by
  rw [Machine.alWorkProc, List.forall_mem_append]
  constructor
  · intro a ha
    obtain ⟨rd, -, had⟩ := List.mem_flatMap.mp ha
    exact own_read rd a had
  · intro a ha
    obtain ⟨k, -, hak⟩ := List.mem_flatMap.mp ha
    rw [List.mem_append, List.mem_append] at hak
    rcases hak with (hphysical | hvports) | hkni
    · exact .write (by decide) hphysical
    · exact own_vportBurstWrite _ _ a hvports
    · exact .write (by decide) hkni

theorem Machine.Performs.own {a : Access} (h : m.Performs id a) : Own m id a := by
  obtain ⟨-, r, hr⟩ := h
  exact own_alWorkProc r a hr

variable {portid : UInt8}

theorem mem_burstWrite_enqueue {kind : Kind} {r : Ring}
    (h : .enqueue r ∈ m.burstWrite id kind portid) :
    m.qcnt kind portid ≤ id ∧ r = .out kind portid id.toNat := by
  rw [Machine.burstWrite] at h
  split at h
  · obtain ⟨q, -, hq⟩ := List.mem_map.mp h
    cases hq
  · next hge =>
      cases List.mem_singleton.mp h
      exact ⟨UInt8.not_lt.mp hge, rfl⟩

theorem mem_burstWrite_dequeue {kind : Kind} (hq : 1 ≤ m.qcnt kind portid) {r : Ring} :
    .dequeue r ∈ m.burstWrite id kind portid ↔ id < m.qcnt kind portid ∧
      ∃ t, r = .out kind portid t ∧ (m.qcnt kind portid).toNat ≤ t ∧ t < m.workThreadCount ∧
        t % (m.qcnt kind portid).toNat = id.toNat := by
  have hpos : 0 < (m.qcnt kind portid).toNat := UInt8.le_iff_toNat_le.mp hq
  rw [Machine.burstWrite]
  split
  · next hlt =>
      have hmod : (id.toNat + (m.qcnt kind portid).toNat) % (m.qcnt kind portid).toNat = id.toNat := by
        rw [Nat.add_mod_right]
        exact Nat.mod_eq_of_lt (UInt8.lt_iff_toNat_lt.mp hlt)
      simp only [List.mem_map, mem_strides hpos (Nat.le_add_right _ _), hmod, Access.dequeue.injEq, hlt,
        true_and]
      constructor
      · intro h
        obtain ⟨t, ⟨hle, hcount, ht⟩, rfl⟩ := h
        exact ⟨t, rfl, by omega, hcount, ht⟩
      · intro h
        obtain ⟨t, rfl, hle, hcount, ht⟩ := h
        refine ⟨t, ⟨?_, hcount, ht⟩, rfl⟩
        -- the quotient is not `0`
        have hdiv := Nat.div_pos hle hpos
        have hsum := Nat.div_add_mod t (m.qcnt kind portid).toNat
        have hmul := Nat.le_mul_of_pos_right (m.qcnt kind portid).toNat hdiv
        omega
  · next hge =>
      simp [hge]

theorem mem_initPortDev {count : ℕ} {kind : Kind} {qcnt : UInt8} (hkind : kind ≠ .vport) {t : ℕ} :
    t ∈ initPortDev count kind qcnt ↔ qcnt.toNat ≤ t ∧ t < count := by
  cases kind with
  | vport => exact absurd rfl hkind
  | physical =>
    simp only [initPortDev, List.mem_range'_1]
    omega
  | kni =>
    simp only [initPortDev, List.mem_range'_1]
    omega

theorem mem_alWorkProc_of_burstWrite {kind : Kind} (hkind : kind ≠ .vport)
    {a : Access} (ha : a ∈ m.burstWrite id kind portid) {r : Round} (hr : portid.toNat < r.ports) :
    a ∈ m.alWorkProc id r := by
  rw [Machine.alWorkProc, List.mem_append]
  refine .inr (List.mem_flatMap.mpr ⟨portid.toNat, List.mem_range.mpr hr, ?_⟩)
  rw [UInt8.ofNat_toNat, List.mem_append, List.mem_append]
  cases kind with
  | physical => exact .inl (.inl ha)
  | vport => exact absurd rfl hkind
  | kni => exact .inr ha

theorem mem_vportBurstWrite {s : ℕ} (hs : s < m.workThreadCount) (hring : m.HasRing id.toNat s)
    (portid : UInt8) (input : Input) :
    .dequeue (.thread id.toNat s) ∈ m.vportBurstWrite id portid input := by
  rw [Machine.vportBurstWrite, List.mem_append]
  refine .inl (List.mem_flatMap.mpr ⟨s, List.mem_range.mpr hs, ?_⟩)
  rw [if_pos hring]
  exact List.mem_cons_self

theorem hasRing_of_ne (hT : m.workThreadCount ≤ 255) {d s : ℕ} (hd : d < m.workThreadCount)
    (hs : s < m.workThreadCount) (hne : d ≠ s) : m.HasRing d s := by
  have hdtoNat : (UInt8.ofNat (0 + d)).toNat = d := by
    rw [Nat.zero_add, UInt8.toNat_ofNat']
    omega
  have hmem := mem_threadRings (Nat.zero_add m.workThreadCount) hd hs (by rwa [hdtoNat])
  rwa [hdtoNat] at hmem

theorem works_lt (hT : m.workThreadCount ≤ 255) {lcore : ℕ} (h : m.Works lcore id) :
    id.toNat < m.workThreadCount := by
  obtain ⟨hmaster, hinfo⟩ := h
  obtain ⟨c, hc, rfl⟩ := worker_id (by simpa using hmaster) hinfo
  have hcount : c < m.workThreadCount := hc
  rw [Nat.zero_add, UInt8.toNat_ofNat']
  omega

theorem works_of_lt (hT : m.workThreadCount ≤ 255) {t : ℕ} (ht : t < m.workThreadCount) :
    ∃ lcore id, m.Works lcore id ∧ id.toNat = t := by
  obtain ⟨n, hn, h⟩ := worker_exists (k := 0) ht
  rw [Nat.zero_add] at hn h
  refine ⟨n, UInt8.ofNat t, ⟨hn, h⟩, ?_⟩
  rw [UInt8.toNat_ofNat']
  omega

/-- The discipline holds for any lcores and any queues of the devices, as long as the workers can
be numbered and each device has a queue. -/
theorem rings_disciplined (m : Machine) (hT : m.workThreadCount ≤ 255)
    (hq : ∀ kind portid, kind ≠ .vport → 1 ≤ m.qcnt kind portid) : Disciplined m where
  distinct := by
    intro lcore lcore' id h h'
    have hfit : 0 + countWorkers m.master 0 m.enabled ≤ 256 := by
      have hcount : countWorkers m.master 0 m.enabled ≤ 255 := hT
      omega
    exact worker_unique hfit (by simpa using h.1) (by simpa using h'.1) h.2 h'.2
  created := by
    intro kind portid t id hkind hdoes
    obtain ⟨lcore, hworks⟩ := hdoes.1
    cases hdoes.own with
    | write _ h =>
      obtain ⟨hge, hring⟩ := mem_burstWrite_enqueue h
      cases hring
      exact (mem_initPortDev hkind).mpr ⟨UInt8.le_iff_toNat_le.mp hge, works_lt hT hworks⟩
    | toVport portid => exact absurd rfl hkind
  producer := by
    intro kind portid t id hkind hdoes
    cases hdoes.own with
    | write _ h =>
      cases (mem_burstWrite_enqueue h).2
      rfl
    | toVport portid => rfl
  consumer := by
    intro kind portid t id hkind hdoes
    cases hdoes.own with
    | write hkind' h =>
      obtain ⟨-, t', hring, -, -, hmod⟩ := (mem_burstWrite_dequeue (hq _ _ hkind')).mp h
      cases hring
      exact hmod.symm
    | fromVport portid t => exact absurd rfl hkind
  visited := by
    intro kind portid t hkind ht
    obtain ⟨hle, hcount⟩ := (mem_initPortDev hkind).mp ht
    have hone := hq kind portid hkind
    have hpos : 0 < (m.qcnt kind portid).toNat := UInt8.le_iff_toNat_le.mp hone
    have hlt := Nat.mod_lt t hpos
    obtain ⟨lcore, id, hworks, hid⟩ :=
      works_of_lt hT (t := t % (m.qcnt kind portid).toNat) (by omega)
    have hidlt : id < m.qcnt kind portid := by
      rw [UInt8.lt_iff_toNat_lt, hid]
      exact hlt
    have hcall := (mem_burstWrite_dequeue hone).mpr ⟨hidlt, t, rfl, hle, hcount, hid.symm⟩
    exact ⟨lcore, id, hworks, hid, hcall, fun r hr => mem_alWorkProc_of_burstWrite hkind hcall hr⟩
  threadCreated := by
    intro d s hd hs hne
    exact hasRing_of_ne hT hd hs hne
  threadProducer := by
    intro d s id hdoes
    cases hdoes.own with
    | write _ h => cases (mem_burstWrite_enqueue h).2
    | hand d => rfl
  threadConsumer := by
    intro d s id hdoes
    cases hdoes.own with
    | write hkind h =>
      obtain ⟨-, t', hring, -⟩ := (mem_burstWrite_dequeue (hq _ _ hkind)).mp h
      cases hring
    | take s => rfl
  threadVisited := by
    intro d s hd hs hne
    obtain ⟨lcore, id, hworks, rfl⟩ := works_of_lt hT hd
    refine ⟨lcore, id, hworks, rfl, fun r hr => ?_⟩
    rw [Machine.alWorkProc, List.mem_append]
    refine .inr (List.mem_flatMap.mpr ⟨0, List.mem_range.mpr hr, ?_⟩)
    rw [List.mem_append, List.mem_append]
    exact .inl (.inr (mem_vportBurstWrite hs (hasRing_of_ne hT hd hs hne) _ _))

def fiveCores : Machine :=
  ⟨List.replicate 5 true, 2, fun kind _ => if kind = .physical then 3 else 1⟩

theorem fiveCores_disciplined : fiveCores.workThreadCount = 4 ∧
    initPortDev fiveCores.workThreadCount .physical (fiveCores.qcnt .physical 0) = [3] ∧
    Disciplined fiveCores := by
  refine ⟨by decide, by decide, rings_disciplined fiveCores (by decide) ?_⟩
  intro kind portid
  cases kind with
  | physical => exact fun _ => (by decide : (1 : UInt8) ≤ 3)
  | vport => exact fun h => absurd rfl h
  | kni => exact fun _ => UInt8.le_refl 1

end Discipline

end Aware.Rings
