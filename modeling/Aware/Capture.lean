import Aware.Lib.Runs
import Mathlib.Data.Fintype.Basic

/-!
# The capture file

Calls of `al_output` on one device by several workers. The lock is taken once for a batch and
released after its first packet, and `al_port_cap_init` releases it before that.
-/
namespace Aware.Capture

def maxPackageLen : ℕ := 65535

structure Packet where
  tsSec : ℕ
  tsUsec : ℕ
  segs : List (List UInt8)
deriving DecidableEq, Repr

def Packet.len (p : Packet) : ℕ := p.segs.flatten.length

def Packet.caplen (p : Packet) : ℕ := if p.len > maxPackageLen then maxPackageLen else p.len

inductive Chunk where
  | fileHeader
  | recordHeader (p : Packet)
  | data (p : Packet) (bytes : List UInt8)
deriving DecidableEq, Repr

/-- Where a worker is in `al_output`. -/
inductive Phase where
  | idle
  | check (batch : List Packet)
  | spin (batch : List Packet)
  | locked (batch : List Packet)
  | opening (batch : List Packet)
  | opened (batch : List Packet)
  | initialised (batch : List Packet)
  | openFailed
  | loop (rest : List Packet)
  | writing (p : Packet) (segs : List (List UInt8)) (rest : List Packet)
  | written (rest : List Packet)
deriving DecidableEq, Repr

/-- `dump_fd` of the device with the file, which is not there before it is first opened. -/
structure Device (ι : Type) where
  fd : Bool
  lock : Bool
  file : Option (List Chunk)
  phase : ι → Phase

def Device.start {ι : Type} : Device ι := ⟨false, false, none, fun _ => .idle⟩

inductive Event where
  | call (batch : List Packet)
  | run (flag : Bool)
deriving DecidableEq, Repr

section Model
variable {ι : Type} [DecidableEq ι]

def Device.goto (d : Device ι) (i : ι) (ph : Phase) : Device ι :=
  { d with phase := Function.update d.phase i ph }

def Device.write (d : Device ι) (c : Chunk) : Option (Device ι) :=
  if d.fd then some { d with file := d.file.map (· ++ [c]) } else none

def Device.run (d : Device ι) (i : ι) (flag : Bool) : Option (Device ι) :=
  match d.phase i with
  | .idle => none
  | .check batch =>
    if flag then some ({ d with fd := false }.goto i .idle)
    else if batch = [] then some (d.goto i .idle)
    else some (d.goto i (.spin batch))
  | .spin batch => if d.lock then some d else some ({ d with lock := true }.goto i (.locked batch))
  | .locked batch => some (d.goto i (if d.fd then .loop batch else .opening batch))
  | .opening batch =>
    if flag then some ({ d with fd := true, file := some [] }.goto i (.opened batch))
    else some ({ d with lock := false }.goto i .openFailed)
  | .opened batch => (d.write .fileHeader).map (·.goto i (.initialised batch))
  | .initialised batch => some ({ d with lock := false }.goto i (.loop batch))
  | .openFailed => some ({ d with fd := false }.goto i .idle)
  | .loop [] => some (d.goto i .idle)
  | .loop (p :: rest) => (d.write (.recordHeader p)).map (·.goto i (.writing p p.segs rest))
  | .writing p (s :: segs) rest => (d.write (.data p s)).map (·.goto i (.writing p segs rest))
  | .writing _ [] rest => some (d.goto i (.written rest))
  | .written rest => some ({ d with lock := false }.goto i (.loop rest))

def Device.step (d : Device ι) (e : ι × Event) : Option (Device ι) :=
  match e.2 with
  | .call batch => if d.phase e.1 = .idle then some (d.goto e.1 (.check batch)) else none
  | .run flag => d.run e.1 flag

end Model

section Spec
variable {ι : Type}

def record (p : Packet) : List Chunk :=
  .recordHeader p :: p.segs.map (.data p)

/-- One file header and complete records, each with `caplen` bytes of its packet. -/
def WellFormed (f : List Chunk) : Prop :=
  ∃ ps : List Packet, f = .fileHeader :: ps.flatMap record ∧ ∀ p ∈ ps, p.segs.flatten.length = p.caplen

def Device.Readable (d : Device ι) : Prop :=
  (∀ i, d.phase i = .idle) → ∀ f, d.file = some f → WellFormed f

def Phase.writes : Phase → Bool
  | .idle | .check _ | .spin _ | .loop [] => false
  | _ => true

def Phase.isCheck : Phase → Bool
  | .check _ => true
  | _ => false

def Phase.isSpin : Phase → Bool
  | .spin _ => true
  | _ => false

def Event.batch : Event → List Packet
  | .call batch => batch
  | .run _ => []

/-- No packet is too long for the file, and a worker closes the file, or gets the lock, only when
no other is at work on it. -/
def Apart (d : Device ι) (e : ι × Event) : Prop :=
  (∀ p ∈ e.2.batch, p.len ≤ maxPackageLen) ∧
    (e.2 = .run true → (d.phase e.1).isCheck = true → d.fd = true → ∀ j, (d.phase j).writes = false) ∧
    ((d.phase e.1).isSpin = true → d.lock = false → ∀ j, (d.phase j).writes = false)

instance [Fintype ι] (d : Device ι) (e : ι × Event) : Decidable (Apart d e) :=
  inferInstanceAs (Decidable (_ ∧ _ ∧ _))

end Spec

def Phase.pending : Phase → List Packet
  | .idle | .openFailed => []
  | .check ps | .spin ps | .locked ps | .opening ps | .opened ps | .initialised ps | .loop ps
  | .written ps => ps
  | .writing p _ ps => p :: ps

structure Settled (fd : Bool) (file : Option (List Chunk)) : Prop where
  isSome : fd = true → file ≠ none
  wellFormed : ∀ f, file = some f → WellFormed f

def Part (fd : Bool) (file : Option (List Chunk)) : Phase → Prop
  | .opening _ => fd = false ∧ Settled fd file
  | .opened _ => fd = true ∧ file = some []
  | .initialised _ | .loop _ | .written _ => fd = true ∧ Settled fd file
  | .writing p segs _ =>
    fd = true ∧ ∃ f done, WellFormed f ∧ p.segs = done ++ segs ∧
      file = some (f ++ .recordHeader p :: done.map (.data p))
  | _ => Settled fd file

theorem WellFormed.fileHeader : WellFormed [.fileHeader] :=
  ⟨[], rfl, fun p hp => by cases hp⟩

theorem WellFormed.append_record {f : List Chunk} (h : WellFormed f) {p : Packet} (hp : p.len ≤ maxPackageLen) :
    WellFormed (f ++ record p) := by
  obtain ⟨ps, rfl, hps⟩ := h
  refine ⟨ps ++ [p], ?_, ?_⟩
  · rw [List.flatMap_append, List.flatMap_singleton, List.cons_append]
  · intro q hq
    rcases List.mem_append.mp hq with hq | hq
    · exact hps q hq
    · rw [List.mem_singleton.mp hq, Packet.caplen, if_neg (Nat.not_lt_of_le hp)]
      rfl

section Sound
variable {ι : Type}

structure Device.Sound (d : Device ι) : Prop where
  small : ∀ i, ∀ p ∈ (d.phase i).pending, p.len ≤ maxPackageLen
  single : ∀ i j, (d.phase i).writes = true → (d.phase j).writes = true → i = j
  part : ∀ i, (d.phase i).writes = true → Part d.fd d.file (d.phase i)
  settled : (∀ i, (d.phase i).writes = false) → Settled d.fd d.file

theorem Device.Sound.start : (Device.start : Device ι).Sound where
  small _ p hp := by cases hp
  single _ _ hi := by cases hi
  part _ hi := by cases hi
  settled _ := ⟨fun h => (by cases h), fun f hf => by cases hf⟩

variable {d d' : Device ι}

theorem Device.Sound.readable (h : d.Sound) : d.Readable := by
  intro hidle f hf
  refine (h.settled fun i => ?_).wellFormed f hf
  rw [hidle i]
  rfl

theorem Device.Sound.alone {i : ι} (h : d.Sound) (hi : (d.phase i).writes = true) (j : ι) (hj : j ≠ i) :
    (d.phase j).writes = false := by
  cases hw : (d.phase j).writes with
  | false => rfl
  | true => exact absurd (h.single j i hw hi) hj

theorem Device.write_eq_some {c : Chunk} (h : d.write c = some d') :
    d' = { d with file := d.file.map (· ++ [c]) } := by
  unfold Device.write at h
  split at h
  · exact (Option.some.inj h).symm
  · cases h

variable [DecidableEq ι] {d : Device ι} {i : ι}

@[simp] theorem Device.goto_self (d : Device ι) (i : ι) (ph : Phase) : (d.goto i ph).phase i = ph := by
  simp only [Device.goto, Function.update_self]

theorem Device.goto_of_ne (d : Device ι) {i j : ι} (h : j ≠ i) (ph : Phase) :
    (d.goto i ph).phase j = d.phase j := by
  simp only [Device.goto, Function.update_of_ne h]

theorem Device.Sound.act (h : d.Sound) (ph : Phase) (fd lock : Bool) (file : Option (List Chunk))
    (halone : ∀ j, j ≠ i → (d.phase j).writes = false)
    (hpending : ∀ p ∈ ph.pending, p.len ≤ maxPackageLen) (hpart : Part fd file ph) :
    (({ d with fd, lock, file } : Device ι).goto i ph).Sound := by
  let e : Device ι := { d with fd, lock, file }
  have hself : (e.goto i ph).phase i = ph := e.goto_self i ph
  have hother : ∀ j, j ≠ i → (e.goto i ph).phase j = d.phase j := fun j hj => e.goto_of_ne hj ph
  have honly : ∀ j, ((e.goto i ph).phase j).writes = true → j = i := by
    intro j hj
    by_contra hne
    rw [hother j hne, halone j hne] at hj
    cases hj
  refine ⟨fun j p hp => ?_, fun j k hj hk => (honly j hj).trans (honly k hk).symm, fun j hj => ?_, fun hnone => ?_⟩
  · by_cases hji : j = i
    · subst hji
      rw [hself] at hp
      exact hpending p hp
    · rw [hother j hji] at hp
      exact h.small j p hp
  · rw [honly j hj, hself]
    exact hpart
  · have hquiet := hnone i
    rw [hself] at hquiet
    cases ph with
    | idle | check _ | spin _ => exact hpart
    | loop rest =>
      cases rest with
      | nil => exact hpart.2
      | cons _ _ => cases hquiet
    | locked _ | opening _ | opened _ | initialised _ | openFailed | writing _ _ _ | written _ =>
      cases hquiet

theorem Device.Sound.wait {ph : Phase} (h : d.Sound) (hbefore : (d.phase i).writes = false)
    (hafter : ph.writes = false) (hpending : ∀ p ∈ ph.pending, p.len ≤ maxPackageLen) : (d.goto i ph).Sound := by
  have hwrites : ∀ j, ((d.goto i ph).phase j).writes = (d.phase j).writes := by
    intro j
    by_cases hji : j = i
    · subst hji
      rw [d.goto_self, hafter, hbefore]
    · rw [d.goto_of_ne hji]
  refine ⟨fun j p hp => ?_, fun j k hj hk => ?_, fun j hj => ?_, fun hnone => h.settled fun j => ?_⟩
  · by_cases hji : j = i
    · subst hji
      rw [d.goto_self] at hp
      exact hpending p hp
    · rw [d.goto_of_ne hji] at hp
      exact h.small j p hp
  · rw [hwrites] at hj hk
    exact h.single j k hj hk
  · have hji : j ≠ i := by
      rintro rfl
      rw [hwrites, hbefore] at hj
      cases hj
    rw [d.goto_of_ne hji] at hj ⊢
    exact h.part j hj
  · rw [← hwrites]
    exact hnone j

theorem Device.Sound.run_outside {flag : Bool} (h : d.Sound)
    (hg : Apart d (i, .run flag)) (hph : (d.phase i).writes = false) (hs : d.run i flag = some d') :
    d'.Sound := by
  have hsmall := h.small i
  cases hi : d.phase i with
  | idle => simp [Device.run, hi] at hs
  | check batch =>
    rw [hi] at hsmall
    simp only [Device.run, hi] at hs
    cases flag with
    | true =>
      cases hs
      cases hfd : d.fd with
      | true =>
        have hnone := hg.2.1 rfl (by rw [hi]; rfl) hfd
        have hsettled := h.settled hnone
        exact h.act .idle false d.lock d.file (fun j _ => hnone j) (fun p hp => by cases hp)
          ⟨fun hopen => (by cases hopen), hsettled.wellFormed⟩
      | false =>
        have hsame : ({ d with fd := false } : Device ι) = d := by
          rw [← hfd]
        rw [hsame]
        exact h.wait hph rfl fun p hp => by cases hp
    | false =>
      rw [if_neg Bool.false_ne_true] at hs
      split at hs
      · cases hs
        exact h.wait hph rfl fun p hp => by cases hp
      · cases hs
        exact h.wait hph rfl hsmall
  | spin batch =>
    rw [hi] at hsmall
    simp only [Device.run, hi] at hs
    cases hlock : d.lock with
    | true =>
      rw [hlock, if_pos rfl] at hs
      cases hs
      exact h
    | false =>
      rw [hlock, if_neg Bool.false_ne_true] at hs
      cases hs
      have hnone := hg.2.2 (by rw [hi]; rfl) hlock
      exact h.act (.locked batch) d.fd true d.file (fun j _ => hnone j) hsmall (h.settled hnone)
  | loop rest =>
    cases rest with
    | nil =>
      simp only [Device.run, hi, Option.some.injEq] at hs
      subst hs
      exact h.wait hph rfl fun p hp => by cases hp
    | cons _ _ =>
      rw [hi] at hph
      cases hph
  | locked _ | opening _ | opened _ | initialised _ | openFailed | writing _ _ _ | written _ =>
    rw [hi] at hph
    cases hph

theorem Device.Sound.run_inside {flag : Bool} (h : d.Sound)
    (hph : (d.phase i).writes = true) (hs : d.run i flag = some d') : d'.Sound := by
  have hsmall := h.small i
  have halone := h.alone hph
  have hpart := h.part i hph
  cases hi : d.phase i with
  | idle | check _ | spin _ =>
    rw [hi] at hph
    cases hph
  | locked batch =>
    rw [hi] at hsmall hpart
    simp only [Device.run, hi, Option.some.injEq] at hs
    subst hs
    cases hfd : d.fd with
    | true => exact h.act (.loop batch) d.fd d.lock d.file halone hsmall ⟨hfd, hpart⟩
    | false => exact h.act (.opening batch) d.fd d.lock d.file halone hsmall ⟨hfd, hpart⟩
  | opening batch =>
    rw [hi] at hsmall hpart
    simp only [Device.run, hi] at hs
    cases flag with
    | true =>
      cases hs
      exact h.act (.opened batch) true d.lock (some []) halone hsmall ⟨rfl, rfl⟩
    | false =>
      cases hs
      exact h.act .openFailed d.fd false d.file halone (fun p hp => by cases hp) hpart.2
  | opened batch =>
    rw [hi] at hsmall hpart
    simp only [Device.run, hi] at hs
    obtain ⟨e, he, rfl⟩ := Option.map_eq_some_iff.mp hs
    rw [Device.write_eq_some he, hpart.2]
    refine h.act (.initialised batch) d.fd d.lock (some [.fileHeader]) halone hsmall ⟨hpart.1, ?_, fun f hf => ?_⟩
    · intro _ hnone
      cases hnone
    · cases hf
      exact .fileHeader
  | initialised batch =>
    rw [hi] at hsmall hpart
    simp only [Device.run, hi, Option.some.injEq] at hs
    subst hs
    exact h.act (.loop batch) d.fd false d.file halone hsmall hpart
  | openFailed =>
    rw [hi] at hpart
    simp only [Device.run, hi, Option.some.injEq] at hs
    subst hs
    exact h.act .idle false d.lock d.file halone (fun p hp => by cases hp)
      ⟨fun hopen => (by cases hopen), hpart.wellFormed⟩
  | loop rest =>
    cases rest with
    | nil =>
      rw [hi] at hph
      cases hph
    | cons p rest =>
      rw [hi] at hsmall hpart
      simp only [Device.run, hi] at hs
      obtain ⟨e, he, rfl⟩ := Option.map_eq_some_iff.mp hs
      rw [Device.write_eq_some he]
      obtain ⟨f, hf⟩ := Option.ne_none_iff_exists'.mp (hpart.2.isSome hpart.1)
      refine h.act (.writing p p.segs rest) d.fd d.lock _ halone hsmall
        ⟨hpart.1, f, [], hpart.2.wellFormed f hf, rfl, ?_⟩
      rw [hf]
      rfl
  | writing p segs rest =>
    rw [hi] at hsmall hpart
    obtain ⟨hfd, f, done, hf, hsegs, hfile⟩ := hpart
    cases segs with
    | nil =>
      simp only [Device.run, hi, Option.some.injEq] at hs
      subst hs
      rw [List.append_nil] at hsegs
      rw [← hsegs] at hfile
      refine h.act (.written rest) d.fd d.lock d.file halone
        (fun q hq => hsmall q (List.mem_cons_of_mem p hq)) ⟨hfd, ?_, fun g hg => ?_⟩
      · intro _ hnone
        rw [hfile] at hnone
        cases hnone
      · rw [hfile] at hg
        cases hg
        exact hf.append_record (hsmall p List.mem_cons_self)
    | cons t segs =>
      simp only [Device.run, hi] at hs
      obtain ⟨e, he, rfl⟩ := Option.map_eq_some_iff.mp hs
      rw [Device.write_eq_some he]
      refine h.act (.writing p segs rest) d.fd d.lock _ halone hsmall ⟨hfd, f, done ++ [t], hf, ?_, ?_⟩
      · rw [hsegs, List.append_assoc, List.singleton_append]
      · rw [hfile, Option.map_some, List.append_assoc, List.cons_append, List.map_append]
        rfl
  | written rest =>
    rw [hi] at hsmall hpart
    simp only [Device.run, hi, Option.some.injEq] at hs
    subst hs
    exact h.act (.loop rest) d.fd false d.file halone hsmall hpart

theorem Device.Sound.step {e : ι × Event} (h : d.Sound) (hg : Apart d e)
    (hs : d.step e = some d') : d'.Sound := by
  obtain ⟨i, ev⟩ := e
  cases ev with
  | call batch =>
    unfold Device.step at hs
    dsimp only at hs
    split at hs
    · rename_i hidle
      cases hs
      exact h.wait (by rw [hidle]; rfl) rfl hg.1
    · cases hs
  | run flag =>
    cases hph : (d.phase i).writes with
    | true => exact h.run_inside hph hs
    | false => exact h.run_outside hg hph hs

/-- Where no worker gets the lock while another one is still at work on the file, the file is
complete whenever no call is in progress. -/
theorem capture_readable {events : List (ι × Event)}
    (hg : Runs.Guarded Device.step Apart (Device.start : Device ι) events) {d : Device ι}
    (h : events.foldlM Device.step (Device.start : Device ι) = some d) : d.Readable :=
  (Runs.Guarded.foldlM_invariant (fun _ _ _ hd hg hs => Device.Sound.step hd hg hs) Device.Sound.start hg
    h).readable

end Sound

def writeOne (p : Packet) : List Event := .call [p] :: List.replicate 8 (.run false)

def openFirst (batch : List Packet) : List Event :=
  .call batch :: [.run false, .run false, .run false, .run true] ++ List.replicate 3 (.run false)

def onePacket (b : UInt8) : Packet := ⟨0, 0, [[b]]⟩

def oneCallAfterTheOther : List (Bool × Event) :=
  (openFirst [onePacket 1, onePacket 2]).map (fun e => (false, e)) ++ List.replicate 8 (false, .run false) ++
    (writeOne (onePacket 3)).map fun e => (true, e)

theorem separate_calls_readable :
    Runs.Guarded Device.step Apart (Device.start : Device Bool) oneCallAfterTheOther ∧
      ∃ d, oneCallAfterTheOther.foldlM Device.step (Device.start : Device Bool) = some d ∧
        (∀ i, d.phase i = .idle) ∧ d.Readable := by
  have hg : Runs.Guarded Device.step Apart (Device.start : Device Bool) oneCallAfterTheOther := by
    decide +kernel
  have hrun : (oneCallAfterTheOther.foldlM Device.step (Device.start : Device Bool)).map
      (fun d => decide (∀ i, d.phase i = .idle)) = some true := by decide +kernel
  obtain ⟨d, hd, hidle⟩ := Option.map_eq_some_iff.mp hrun
  exact ⟨hg, d, hd, of_decide_eq_true hidle, capture_readable hg hd⟩

def interleavedCalls : List (Bool × Event) :=
  (openFirst [onePacket 1]).map (fun e => (false, e)) ++ (writeOne (onePacket 2)).map (fun e => (true, e)) ++
    List.replicate 4 (false, .run false)

theorem record_torn :
    ∃ d, interleavedCalls.foldlM Device.step (Device.start : Device Bool) = some d ∧ ¬ d.Readable := by
  have hrun : (interleavedCalls.foldlM Device.step (Device.start : Device Bool)).map
      (fun d => (decide (∀ i, d.phase i = .idle), d.file)) =
        some (true, some [.fileHeader, .recordHeader (onePacket 1), .recordHeader (onePacket 2),
          .data (onePacket 2) [2], .data (onePacket 1) [1]]) := by decide +kernel
  obtain ⟨d, hd, hpair⟩ := Option.map_eq_some_iff.mp hrun
  obtain ⟨hidle, hfile⟩ := Prod.mk.inj hpair
  refine ⟨d, hd, fun hreadable => ?_⟩
  obtain ⟨ps, hps, -⟩ := hreadable (of_decide_eq_true hidle) _ hfile
  cases ps with
  | nil => cases hps
  | cons p ps =>
    -- The chunk behind the first record header is a second record header.
    cases hps

end Aware.Capture
