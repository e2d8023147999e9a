import Aware.Frame.Process
import Aware.Lib.Runs

/-!
# A batch of frames

`al_main_process` with the input functions it calls, up to the sweep that may follow. Each frame is
handed over to a ring or a device or is freed, and a log says which frame went where.
-/
namespace Aware.Frames
open Aware.Filter Aware.Member Aware.Memory Aware.OnesSum Aware.Service Aware.Sessions

section Gslb

def dnsQClassIn : UInt8 := 1

structure Names where
  dns : List UInt8 → Bool
  geoip : BitVec 32 → Bool
  geoip6 : BitVec 128 → Bool

/-- `dns_parse_name`: the packet afterwards, and where the name ends with the number of bytes in
the buffer. All of them are dots. -/
def dnsParseName : ℕ → (ℕ → UInt8) → ℕ → ℕ → UInt8 → (ℕ → UInt8) × Option (ℕ × ℕ)
  | 0, mem, _, _, _ => (mem, none)
  | fuel + 1, mem, query, len, c =>
    let n := mem query
    let mem := write mem query [c]
    if n &&& 0xc0 = 0xc0 then (mem, none)
    else if len < n.toNat then (mem, none)
    else
      let len := (if len = 0 then 0 else len + 1) + n.toNat
      let query := query + 1 + n.toNat
      if mem query = 0 then (mem, some (query + 1, len))
      else dnsParseName fuel mem query len n

def notImplemented (m : Mbuf) (hdr : ℕ) : Mbuf := m.write (hdr + 14) [0, 0]

/-- `al_gslb_process` up to its hand-over: the frame, and whether it goes to the kernel. `none`
is a store through the unset `margs.data`. -/
def alGslbProcess (names : Names) (m : Mbuf) (hdr : ℕ) : Option (Mbuf × Bool) :=
  let flag := htons (field16 m.mem (hdr + 10))
  let m := m.write (hdr + 10) (leBytes 2 flag.toNat)
  if flag.toNat / 32768 = 0 then some (m, true)
  else if field16 m.mem (hdr + 12) ≠ 1 ∨ flag.toNat / 2048 % 16 ≠ 0 then
    some (notImplemented m hdr, false)
  else
    match dnsParseName 2 m.mem (hdr + 20) 0 0 with
    | (mem, none) => some ({ m with mem }, true)
    | (mem, some (query, len)) =>
      let m := { m with mem }
      let queryType := (htons (field16 mem query)).toUInt8
      -- the type is compared with the class
      if queryType ≠ dnsQA ∧ queryType ≠ dnsQAaaa ∨ queryType ≠ dnsQClassIn then
        some (notImplemented m hdr, false)
      else if names.dns (List.replicate len 46) = false then some (m, true)
      else
        let found :=
          if m.etherType = etherTypeIpv4 then names.geoip (BitVec.ofNat 32 (field m.mem 26 4))
          else m.etherType = etherTypeIpv6 && names.geoip6 (BitVec.ofNat 128 (field m.mem 22 16))
        if found then none else some (m, true)

theorem dnsParseName_enough (fuel : ℕ) (mem : ℕ → UInt8) (query : ℕ) (c : UInt8) :
    dnsParseName (fuel + 2) mem query 0 c = dnsParseName 2 mem query 0 c := by
  -- a second turn sees a label that is not empty, and the empty buffer has no room for it
  have hsecond : ∀ fuel mem query c, mem query ≠ 0 →
      dnsParseName (fuel + 1) mem query 0 c = (write mem query [c], none) := by
    intro fuel mem query c hne
    have hpos : 0 < (mem query).toNat := Nat.pos_of_ne_zero fun hzero => hne (UInt8.toNat_inj.mp hzero)
    rw [dnsParseName]
    simp only [hpos, if_true, ite_self]
  rw [dnsParseName, dnsParseName]
  by_cases hempty : (mem query).toNat = 0
  · simp only [hempty, if_true, Nat.add_zero]
    split
    · rfl
    · split
      · rfl
      · split
        · rfl
        · rename_i hnext
          rw [hsecond _ _ _ _ hnext, hsecond _ _ _ _ hnext]
  · simp only [Nat.pos_of_ne_zero hempty, if_true]

end Gslb

def portTypeKni : UInt8 := 0

def rxDescDefault : ℕ := 256

inductive Fate where
  | freed
  | threadRing (thread lcore : UInt8)
  | vport (portid lcore : UInt8)
  | kni (portid : UInt8)
  | kniRing (portid lcore : UInt8)
deriving DecidableEq, Repr

structure Disposal where
  buf : ℕ
  frame : Mbuf
  fate : Fate

/-- The thread at work. `accepts` says how many packets each burst call takes. -/
structure Setting where
  lcore : UInt8
  workers : UInt8
  kniQcnt : UInt8 → UInt8
  accepts : ℕ → ℕ

def Setting.HasRing (cfg : Setting) (thread : UInt8) : Prop :=
  thread ≠ cfg.lcore ∧ thread < cfg.workers

instance (cfg : Setting) (thread : UInt8) : Decidable (cfg.HasRing thread) :=
  inferInstanceAs (Decidable (_ ∧ _))

structure Outside where
  sys : System
  stk : Stack
  names : Names

/-- The state of a batch: what the thread works on, the burst calls so far, what has been
disposed of, and the frames kept for the end. -/
structure Line (ι : Type) where
  shared : Shared ι
  table : List (List ι)
  calls : ℕ
  log : List Disposal
  outbuf : List (ℕ × Mbuf)

section Model
variable {ι : Type}

/-- A burst call takes over a front part of the packets, and the rest is freed. -/
def Line.handOver (st : Line ι) (cfg : Setting) (fate : Fate) (bufs : List (ℕ × Mbuf)) : Line ι :=
  let rc := cfg.accepts st.calls
  { st with
    calls := st.calls + 1
    log := st.log ++ ((bufs.take rc).map fun b => ⟨b.1, b.2, fate⟩) ++
      (bufs.drop rc).map fun b => ⟨b.1, b.2, .freed⟩ }

def Line.free (st : Line ι) (buf : ℕ × Mbuf) : Line ι :=
  { st with log := st.log ++ [⟨buf.1, buf.2, .freed⟩] }

/-- `kni_burst_write`, without the queues of other threads that it empties. -/
def kniBurstWrite (cfg : Setting) (portid : UInt8) (bufs : List (ℕ × Mbuf)) (st : Line ι) : Line ι :=
  if cfg.lcore < cfg.kniQcnt portid then st.handOver cfg (.kni portid) bufs
  else st.handOver cfg (.kniRing portid cfg.lcore) bufs

def sendToSwitch (cfg : Setting) (portid : UInt8) (bufs : List (ℕ × Mbuf)) (toKni : Bool)
    (st : Line ι) : Line ι :=
  if toKni then kniBurstWrite cfg portid bufs st
  else st.handOver cfg (.vport portid cfg.lcore) bufs

variable [DecidableEq ι]

def Line.process (st : Line ι) (cfg : Setting) (x : ι) (buf : ℕ × Mbuf) (hdr : ℕ) : Line ι :=
  let s := st.shared.heap x
  let up := st.shared.heap s.up
  let heap := Function.update st.shared.heap x { s with stout := sessionIdleTimeout }
  sendToSwitch cfg up.portid [(buf.1, alProcess s up buf.2 hdr)] false
    { st with shared := { st.shared with heap } }

def Line.service (st : Line ι) (cfg : Setting) (out : Outside) (f : AlFargs) (buf : ℕ × Mbuf)
    (pkt : Packet) (hdr : ℕ) : Option (Line ι) :=
  if f.ftype = fltGslb then
    (alGslbProcess out.names buf.2 hdr).map fun r =>
      sendToSwitch cfg buf.2.port [(buf.1, r.1)] r.2 st
  else
    match alService out.sys out.stk cfg.lcore f pkt st.shared st.table with
    | none => none
    | some (some (c, _), shared, table) => some ({ st with shared, table }.process cfg c buf hdr)
    | some (none, shared, table) => some ({ st with shared, table }.free buf)

/-- The owner of the packet's 5-tuple, which is asked for frames from a device only. -/
def Line.owner (st : Line ι) (fromNic : Bool) (pkt : Packet) : Option UInt8 :=
  if fromNic then st.shared.ports.whichThread pkt.key else none

def filterSearch (sys : System) (pkt : Packet) : Option (Option AlFargs) :=
  match pkt.family with
  | .inet => alFilterSearch sys.filters .inet (netOrder pkt.dstAddr.ipv4) pkt.dstPort pkt.proto
  | .inet6 => alFilterSearch sys.filters .inet6 (netOrder pkt.dstAddr.ipv6) pkt.dstPort pkt.proto

def Line.miss (st : Line ι) (cfg : Setting) (out : Outside) (fromNic : Bool) (type : UInt8)
    (buf : ℕ × Mbuf) (pkt : Packet) (hdr : ℕ) : Option (Line ι) :=
  match st.owner fromNic pkt with
  | some thread =>
    if cfg.HasRing thread then
      some (st.handOver cfg (.threadRing thread cfg.lcore)
        [(buf.1, { buf.2 with udata64 := type.toUInt64 })])
    else none
  | none =>
    match filterSearch out.sys pkt with
    | none => none
    | some (some f) => st.service cfg out f buf pkt hdr
    | some none =>
      let toKni := if fromNic then type != portTypeKni else buf.2.udata64 != portTypeKni.toUInt64
      some (sendToSwitch cfg buf.2.port [buf] toKni st)

def alIpv4Input (cfg : Setting) (out : Outside) (fromNic : Bool) (type : UInt8) (st : Line ι)
    (buf : ℕ × Mbuf) : Option (Line ι) :=
  match sessionGet st.table st.shared.heap buf.2.packet4.inputKey with
  | some x => some (st.process cfg x buf buf.2.nextptr4)
  | none => st.miss cfg out fromNic type buf buf.2.packet4 buf.2.nextptr4

/-- A session that is found is called through its `handler`, which nothing sets. -/
def alIpv6Input (cfg : Setting) (out : Outside) (fromNic : Bool) (type : UInt8) (st : Line ι)
    (buf : ℕ × Mbuf) : Option (Line ι) :=
  match sessionGet st.table st.shared.heap buf.2.packet6.inputKey with
  | some _ => none
  | none => st.miss cfg out fromNic type buf buf.2.packet6 Mbuf.nextptr6

def Line.keep (st : Line ι) (buf : ℕ × Mbuf) : Option (Line ι) :=
  if st.outbuf.length < rxDescDefault then some { st with outbuf := st.outbuf ++ [buf] } else none

structure Arrival where
  buf : ℕ
  frame : Mbuf
  out : Outside

def mainFrame (cfg : Setting) (portid : UInt8) (fromNic : Bool) (type : UInt8) (st : Line ι)
    (a : Arrival) : Option (Line ι) :=
  match a.frame.classify with
  | .bad => some (st.free (a.buf, a.frame))
  | .ipv4 => alIpv4Input cfg a.out fromNic type st (a.buf, { a.frame with port := portid })
  | .ipv6 => alIpv6Input cfg a.out fromNic type st (a.buf, { a.frame with port := portid })
  -- `al_icmp6_proc` hands the frame over, and it is kept all the same
  | .icmp6 =>
    (sendToSwitch cfg (a.out.sys.vports a.frame.port).port [(a.buf, a.frame)] false st).keep
      (a.buf, a.frame)
  | .arp => st.keep (a.buf, a.frame)
  | .other => st.keep (a.buf, a.frame)

structure Batch where
  frames : List (Mbuf × Outside)
  size : frames.length ≤ rxDescDefault

def Batch.arrivals (b : Batch) : List Arrival :=
  b.frames.mapIdx fun i f => ⟨i, f.1, f.2⟩

def alMainProcess (cfg : Setting) (portid : UInt8) (fromNic : Bool) (type : UInt8)
    (shared : Shared ι) (table : List (List ι)) (b : Batch) : Option (Line ι) :=
  (b.arrivals.foldlM (mainFrame cfg portid fromNic type) ⟨shared, table, 0, [], []⟩).map fun st =>
    sendToSwitch cfg portid st.outbuf (type != portTypeKni) { st with outbuf := [] }

end Model

end Aware.Frames
