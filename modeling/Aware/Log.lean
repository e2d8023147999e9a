import Aware.Lib.Memory
import Aware.Lib.OnesSum
import Aware.Lib.RingBuffer
import Aware.Lib.Runs

/-!
# The log ring

`log_core` writes each message into a slot of `LOG_LINE_MAXLEN` bytes, and `readlog` empties the
slots into a file. The length that is kept with a message is that of its whole text, and the slots
start behind the head of the memory that they are counted for.
-/
namespace Aware.Log
open Aware.Memory Aware.OnesSum Aware.RingBuffer

def logMemSize : ℕ := 1024 * 1024 * 2

def logLineMaxlen : ℕ := 1024

def sizeofLogMemory : ℕ := 64

def msgEntryOff : ℕ := 11

def msgEntrylen : ℕ := logLineMaxlen - msgEntryOff

def count : ℕ := logMemSize / logLineMaxlen

def logLevelDesc : List String :=
  ["ERMARG", "FETAL", "ERROR", "WORN", "TRACE", "INFO", "DEBUG1", "DEBUG2"]

def layoutDesc : List String :=
  ["dpdk", "app", "datalink", "http", "switch", "conf", "arp", "ip", "tcp_proxy", "tcp"]

/-- A call of `log_core`: `text` is what the format comes to, `time` the value of `g_sys_time`. -/
structure Message where
  time : UInt64
  level : ℕ
  layout : ℕ
  text : List UInt8

/-- What a call writes: `struct core_log` with its bit fields, and what `vsnprintf` leaves. -/
def Message.bytes (m : Message) : List UInt8 :=
  leBytes 8 m.time.toNat ++ [UInt8.ofNat (m.level % 8 + 8 * (m.layout % 32))] ++
    leBytes 2 m.text.length ++ (m.text.take (msgEntrylen - 1) ++ [0])

structure LogMemory where
  mem : ℕ → UInt8
  head : ℕ
  tail : ℕ

def initLog : LogMemory := ⟨fun _ => 0, 0, 0⟩

def entryAddr (k : ℕ) : ℕ := sizeofLogMemory + logLineMaxlen * k

def logCore (g : LogMemory) (m : Message) : LogMemory where
  mem := write g.mem (entryAddr g.tail) m.bytes
  head := if (g.tail + 1) % count = g.head then (g.head + 1) % count else g.head
  tail := (g.tail + 1) % count

structure Line where
  time : ℕ
  layout : String
  level : String
  text : List UInt8
deriving DecidableEq

/-- The entry at `a` as `readlog` takes it. `none` is a read behind one of the tables. -/
def readEntry (mem : ℕ → UInt8) (a : ℕ) : Option Line :=
  match layoutDesc[(mem (a + 8)).toNat / 8]?, logLevelDesc[(mem (a + 8)).toNat % 8]? with
  | some layout, some level =>
    some ⟨leNat (slice mem a 8), layout, level,
      slice mem (a + msgEntryOff) (leNat (slice mem (a + 9) 2))⟩
  | _, _ => none

def readlog : ℕ → LogMemory → Option (List Line × LogMemory)
  | 0, _ => none
  | fuel + 1, g =>
    if g.tail = g.head then some ([], g)
    else
      match readEntry g.mem (entryAddr g.head), readlog fuel { g with head := (g.head + 1) % count } with
      | some line, some (lines, g') => some (line :: lines, g')
      | _, _ => none

section Spec

def Message.line (m : Message) : Line :=
  ⟨m.time.toNat, layoutDesc.getD m.layout "", logLevelDesc.getD m.level "", m.text.take (msgEntrylen - 1)⟩

inductive Call where
  | logCore (m : Message)
  | readlog

structure Watch where
  g : LogMemory
  recent : List Message
  output : List Line
  wanted : List Line
  inside : Bool

def Watch.start : Watch := ⟨initLog, [], [], [], true⟩

def Watch.step (w : Watch) : Call → Option Watch
  | .logCore m =>
    some { w with
      g := Log.logCore w.g m
      recent := w.recent ++ [m]
      inside := w.inside && decide (entryAddr w.g.tail + m.bytes.length ≤ logMemSize) }
  | .readlog =>
    (Log.readlog count w.g).map fun r =>
      { w with
        g := r.2
        recent := []
        output := w.output ++ r.1
        wanted := w.wanted ++ (latest (count - 1) w.recent).map Message.line }

def Watch.Faithful (w : Watch) : Prop :=
  w.output = w.wanted ∧ w.inside = true

/-- The kept length is right, the level and the layout are in the tables, and the last slot gets
no more than there is room for. -/
def Fits (w : Watch) : Call → Prop
  | .logCore m =>
    m.level < 8 ∧ m.layout < 10 ∧
      (m.text.length < msgEntrylen ∨ m.text.length % 65536 = msgEntrylen - 1) ∧
      (w.g.tail = count - 1 → m.text.length ≤ 948)
  | .readlog => True

instance (w : Watch) : (c : Call) → Decidable (Fits w c)
  | .logCore _ => inferInstanceAs (Decidable (_ ∧ _))
  | .readlog => inferInstanceAs (Decidable True)

end Spec

section Entry
variable {mem : ℕ → UInt8} {s : ℕ} {m : Message}

structure Message.Good (m : Message) : Prop where
  level : m.level < 8
  layout : m.layout < 10
  length : m.text.length < msgEntrylen ∨ m.text.length % 65536 = msgEntrylen - 1

structure Stored (mem : ℕ → UInt8) (s : ℕ) (m : Message) : Prop where
  good : m.Good
  entry : slice mem (entryAddr s) m.bytes.length = m.bytes

theorem length_bytes (m : Message) : m.bytes.length = msgEntryOff + (min m.text.length (msgEntrylen - 1) + 1) := by
  rw [Message.bytes, List.length_append, List.length_append, List.length_append, length_leBytes, length_leBytes,
    List.length_append, List.length_take, List.length_singleton, List.length_singleton, Nat.min_comm]
  rfl

theorem length_bytes_le (m : Message) : m.bytes.length ≤ logLineMaxlen := by
  have hmin := Nat.min_le_right m.text.length (msgEntrylen - 1)
  rw [length_bytes, logLineMaxlen, msgEntryOff]
  change _ ≤ 1012 at hmin
  change 11 + (_ + 1) ≤ 1024
  omega

theorem Stored.readEntry (h : Stored mem s m) : readEntry mem (entryAddr s) = some m.line := by
  obtain ⟨⟨hlevel, hlayout, hlength⟩, hentry⟩ := h
  -- the entry field by field
  have hfields : slice mem (entryAddr s) 8 ++ (slice mem (entryAddr s + 8) 1 ++ (slice mem (entryAddr s + 9) 2 ++
      slice mem (entryAddr s + 11) (min m.text.length 1012 + 1))) =
      leBytes 8 m.time.toNat ++ ([UInt8.ofNat (m.level % 8 + 8 * (m.layout % 32))] ++
        (leBytes 2 m.text.length ++ (m.text.take 1012 ++ [0]))) := by
    rw [length_bytes] at hentry
    change slice mem (entryAddr s) (11 + (min m.text.length 1012 + 1)) = _ at hentry
    rw [← slice_add, ← slice_add, ← slice_add, ← List.append_assoc, ← List.append_assoc, ← List.append_assoc]
    have hsum : 8 + (1 + (2 + (min m.text.length 1012 + 1))) = 11 + (min m.text.length 1012 + 1) := by omega
    rw [hsum]
    exact hentry.trans (List.append_assoc _ _ _).symm
  obtain ⟨htime, hrest⟩ := List.append_inj hfields (by rw [length_slice, length_leBytes])
  obtain ⟨hbits, hrest⟩ := List.append_inj hrest (by rw [length_slice, List.length_singleton])
  obtain ⟨hmsglen, htext⟩ := List.append_inj hrest (by rw [length_slice, length_leBytes])
  have hbyte : (mem (entryAddr s + 8)).toNat = m.level % 8 + 8 * (m.layout % 32) := by
    rw [(List.cons.inj hbits).1, UInt8.toNat_ofNat']
    exact Nat.mod_eq_of_lt (by omega)
  have hkept : slice mem (entryAddr s + msgEntryOff) (m.text.length % 65536) = m.text.take (msgEntrylen - 1) := by
    have hmin : m.text.length % 65536 = min m.text.length 1012 := by
      change m.text.length < 1013 ∨ m.text.length % 65536 = 1012 at hlength
      omega
    rw [slice_add] at htext
    rw [hmin]
    refine (List.append_inj htext ?_).1
    rw [length_slice, List.length_take, Nat.min_comm]
  have hdiv : (m.level % 8 + 8 * (m.layout % 32)) / 8 = m.layout := by omega
  have hmod : (m.level % 8 + 8 * (m.layout % 32)) % 8 = m.level := by omega
  have htimelt : m.time.toNat % 256 ^ 8 = m.time.toNat := Nat.mod_eq_of_lt m.time.toNat_lt
  rw [Log.readEntry, hbyte, hmsglen, leNat_leBytes, htime, leNat_leBytes, hdiv, hmod, htimelt,
    List.getElem?_eq_getElem (l := layoutDesc) hlayout, List.getElem?_eq_getElem (l := logLevelDesc) hlevel]
  change some (Line.mk _ _ _ (slice mem _ (m.text.length % 65536))) = _
  rw [hkept, Message.line, List.getD_eq_getElem?_getD, List.getD_eq_getElem?_getD,
    List.getElem?_eq_getElem (l := layoutDesc) hlayout, List.getElem?_eq_getElem (l := logLevelDesc) hlevel]
  rfl

theorem Stored.write (h : Stored mem s m) {t : ℕ} (ht : s ≠ t) (m' : Message) :
    Stored (write mem (entryAddr t) m'.bytes) s m := by
  refine ⟨h.good, ?_⟩
  have hlen := length_bytes_le m
  have hlen' := length_bytes_le m'
  rw [slice_write_outside, h.entry]
  unfold entryAddr
  unfold logLineMaxlen at hlen hlen' ⊢
  rcases Nat.lt_or_gt_of_ne ht with hlt | hlt
  · exact .inl (by omega)
  · exact .inr (by omega)

end Entry

abbrev LogMemory.Has (g : LogMemory) (ms : List Message) : Prop :=
  Holds (Stored g.mem) count g.head g.tail ms

theorem LogMemory.Has.readlog {g : LogMemory} {ms : List Message} (h : g.Has ms) {fuel : ℕ}
    (hfuel : ms.length < fuel) :
    Log.readlog fuel g = some (ms.map Message.line, { g with head := g.tail }) := by
  induction fuel generalizing g ms with
  | zero => exact absurd hfuel (Nat.not_lt_zero _)
  | succ fuel ih =>
    cases ms with
    | nil =>
      obtain ⟨mem, head, tail⟩ := g
      cases h.empty_iff.mpr rfl
      rw [Log.readlog, if_pos rfl]
      rfl
    | cons m ms =>
      have hne : g.tail ≠ g.head := fun heq => List.cons_ne_nil m ms (h.empty_iff.mp heq)
      obtain ⟨hstored, hrest⟩ := h.pop
      have hread := ih (g := { g with head := (g.head + 1) % count }) hrest (Nat.lt_of_succ_lt_succ hfuel)
      rw [Log.readlog, if_neg hne, hstored.readEntry, hread]
      rfl

theorem LogMemory.Has.logCore {g : LogMemory} {recent : List Message}
    (h : g.Has (latest (count - 1) recent)) {m : Message} (hm : m.Good) :
    (Log.logCore g m).Has (latest (count - 1) (recent ++ [m])) := by
  apply Holds.add (by decide) (by decide) h
  · exact ⟨hm, slice_write⟩
  · intro s y hs hy
    exact hy.write hs m

structure Watch.Sound (w : Watch) : Prop where
  has : w.g.Has (latest (count - 1) w.recent)
  faithful : w.Faithful

theorem Watch.Sound.start : Watch.start.Sound where
  has := ⟨by decide, rfl, by decide, fun k y hy => by cases hy⟩
  faithful := ⟨rfl, rfl⟩

theorem Watch.Sound.step {w : Watch} {c : Call} (h : w.Sound) (hfits : Fits w c) :
    ∃ w', w.step c = some w' ∧ w'.Sound := by
  obtain ⟨houtput, hinside⟩ := h.faithful
  cases c with
  | logCore m =>
    obtain ⟨hlevel, hlayout, hlength, hlast⟩ := hfits
    refine ⟨_, rfl, h.has.logCore ⟨hlevel, hlayout, hlength⟩, houtput, ?_⟩
    have htail : w.g.tail < count := by
      rw [h.has.tail_eq]
      exact Nat.mod_lt _ (by decide)
    have hroom : entryAddr w.g.tail + m.bytes.length ≤ logMemSize := by
      have hle := length_bytes_le m
      have hlen := length_bytes m
      change w.g.tail < 2048 at htail
      change w.g.tail = 2047 → _ at hlast
      change _ ≤ 1024 at hle
      change _ = 11 + (min m.text.length 1012 + 1) at hlen
      change 64 + 1024 * w.g.tail + _ ≤ 2097152
      omega
    change (w.inside && decide _) = true
    rw [hinside, decide_eq_true hroom]
    rfl
  | readlog =>
    have hread := h.has.readlog h.has.length_lt
    have htail : w.g.tail < count := by
      rw [h.has.tail_eq]
      exact Nat.mod_lt _ (by decide)
    have hempty : ({ w.g with head := w.g.tail } : LogMemory).Has [] :=
      ⟨htail, (Nat.mod_eq_of_lt htail).symm, by decide, fun k y hy => by cases hy⟩
    refine ⟨{ w with
      g := { w.g with head := w.g.tail }
      recent := []
      output := w.output ++ (latest (count - 1) w.recent).map Message.line
      wanted := w.wanted ++ (latest (count - 1) w.recent).map Message.line }, ?_, ?_, ?_, hinside⟩
    · rw [Watch.step, hread, Option.map_some]
    · change LogMemory.Has _ (latest (count - 1) [])
      rw [latest_nil]
      exact hempty
    · change w.output ++ _ = w.wanted ++ _
      rw [houtput]

/-- Along every sequence of calls that fit, no call fails, the file has the lines that it should
have and all entries are inside the block. -/
theorem log_faithful {calls : List Call} (hg : Runs.Guarded Watch.step Fits Watch.start calls) :
    Runs.Along Watch.step Watch.Faithful Watch.start calls :=
  Runs.Along.of_guarded (fun _ h => h.faithful) (fun _ _ h hfits => h.step hfits) Watch.Sound.start hg

def greeting : Message := ⟨1, 5, 1, [104, 105]⟩

theorem greeting_logged :
    Runs.Guarded Watch.step Fits Watch.start [.logCore greeting, .readlog, .logCore greeting, .readlog] ∧
      Runs.Along Watch.step Watch.Faithful Watch.start
        [.logCore greeting, .readlog, .logCore greeting, .readlog] := by
  have hg : Runs.Guarded Watch.step Fits Watch.start
      [.logCore greeting, .readlog, .logCore greeting, .readlog] := by decide +kernel
  exact ⟨hg, log_faithful hg⟩

def longMessage : Message := ⟨1, 5, 1, List.replicate 1013 97⟩

theorem long_message_overrun :
    ∃ w, [Call.logCore longMessage, .readlog].foldlM Watch.step Watch.start = some w ∧ ¬ w.Faithful := by
  have hrun : ([Call.logCore longMessage, .readlog].foldlM Watch.step Watch.start).map
      (fun w => (w.output.map fun l => l.text.length, w.wanted.map fun l => l.text.length)) =
      some ([1013], [1012]) := by decide +kernel
  obtain ⟨w, hw, hlengths⟩ := Option.map_eq_some_iff.mp hrun
  refine ⟨w, hw, fun hfaithful => ?_⟩
  rw [hfaithful.1] at hlengths
  obtain ⟨hout, hwanted⟩ := Prod.mk.inj hlengths
  exact absurd (hout.symm.trans hwanted) (by decide)

end Aware.Log
