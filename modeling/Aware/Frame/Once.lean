import Aware.Frame.Input
import Aware.Service.Alone

/-!
# Each frame is disposed of once

What one frame adds to the log of its batch, and from it what a whole batch does.
-/
namespace Aware.Frames
open Aware.Filter Aware.Member Aware.Service Aware.Sessions

def Line.ServiceFaults {ι : Type} (st : Line ι) (out : Outside) (f : AlFargs) (m : Mbuf) (hdr : ℕ) : Prop :=
  if f.ftype = fltGslb then alGslbProcess out.names m hdr = none
  else 2 ≤ st.shared.pool.length ∧ chooseMember out.sys out.stk f = none

def Line.MissFaults {ι : Type} (st : Line ι) (cfg : Setting) (out : Outside) (fromNic : Bool)
    (m : Mbuf) (pkt : Packet) (hdr : ℕ) : Prop :=
  match st.owner fromNic pkt with
  | some thread => ¬ cfg.HasRing thread
  | none =>
    match filterSearch out.sys pkt with
    | none => True
    | some none => False
    | some (some f) => st.ServiceFaults out f m hdr

/-- The frame is no ICMPv6 packet that passes the checks, no IPv6 one with a session, and reaches
none of these faults. -/
def Safe {ι : Type} (cfg : Setting) (portid : UInt8) (fromNic : Bool) (st : Line ι) (a : Arrival) :
    Prop :=
  let m := { a.frame with port := portid }
  match a.frame.classify with
  | .bad | .arp | .other => True
  | .icmp6 => False
  | .ipv4 =>
    sessionGet st.table st.shared.heap m.packet4.inputKey = none →
      ¬ st.MissFaults cfg a.out fromNic m m.packet4 m.nextptr4
  | .ipv6 =>
    sessionGet st.table st.shared.heap m.packet6.inputKey = none ∧
      ¬ st.MissFaults cfg a.out fromNic m m.packet6 Mbuf.nextptr6

section Once
variable {ι : Type} {st st' : Line ι} {cfg : Setting} {out : Outside} {buf : ℕ × Mbuf} {pkt : Packet}
  {portid type : UInt8} {fromNic : Bool} {hdr : ℕ} {a : Arrival}

def Line.entries (st : Line ι) : List ℕ :=
  st.log.map Disposal.buf ++ st.outbuf.map Prod.fst

def Adds (st st' : Line ι) (is : List ℕ) : Prop :=
  st'.entries.Perm (st.entries ++ is)

theorem Adds.trans {st'' : Line ι} {is js : List ℕ} (h : Adds st st' is) (h' : Adds st' st'' js) :
    Adds st st'' (is ++ js) := by
  rw [Adds, ← List.append_assoc]
  exact List.Perm.trans h' (List.Perm.append_right _ h)

theorem Adds.length {is : List ℕ} (h : Adds st st' is) :
    st'.entries.length = st.entries.length + is.length := by
  rw [h.length_eq, List.length_append]

def DisposesUnless (faults : Prop) (st : Line ι) (i : ℕ) (r : Option (Line ι)) : Prop :=
  (faults → r = none) ∧
    (¬ faults → ∃ st', r = some st' ∧ Adds st st' [i] ∧ st'.outbuf = st.outbuf)

theorem adds_handOver (st : Line ι) (cfg : Setting) (fate : Fate) (bufs : List (ℕ × Mbuf)) :
    Adds st (st.handOver cfg fate bufs) (bufs.map Prod.fst) := by
  have hbufs : (bufs.take (cfg.accepts st.calls)).map Prod.fst ++
      (bufs.drop (cfg.accepts st.calls)).map Prod.fst = bufs.map Prod.fst := by
    rw [← List.map_append, List.take_append_drop]
  have hlog : (st.handOver cfg fate bufs).log.map Disposal.buf =
      st.log.map Disposal.buf ++ bufs.map Prod.fst := by
    rw [← hbufs]
    simp [Line.handOver, Function.comp_def]
  rw [Adds, Line.entries, Line.entries, hlog, List.append_assoc, List.append_assoc]
  exact List.perm_append_comm.append_left _

theorem adds_free (st : Line ι) (buf : ℕ × Mbuf) : Adds st (st.free buf) [buf.1] := by
  rw [Adds, Line.entries, Line.entries]
  simp only [Line.free, List.map_append, List.map_singleton, List.append_assoc]
  exact List.perm_append_comm.append_left _

theorem adds_sendToSwitch (cfg : Setting) (portid : UInt8) (bufs : List (ℕ × Mbuf)) (toKni : Bool)
    (st : Line ι) : Adds st (sendToSwitch cfg portid bufs toKni st) (bufs.map Prod.fst) := by
  unfold sendToSwitch kniBurstWrite
  split
  · split <;> exact adds_handOver ..
  · exact adds_handOver ..

theorem outbuf_sendToSwitch (cfg : Setting) (portid : UInt8) (bufs : List (ℕ × Mbuf)) (toKni : Bool)
    (st : Line ι) : (sendToSwitch cfg portid bufs toKni st).outbuf = st.outbuf := by
  unfold sendToSwitch kniBurstWrite
  split
  · split <;> rfl
  · rfl

def Moves (st : Line ι) (is : List ℕ) (r : Option (Line ι)) : Prop :=
  ∃ st', r = some st' ∧ Adds st st' is ∧ st'.outbuf.length ≤ st.outbuf.length + 1

theorem DisposesUnless.moves {faults : Prop} {i : ℕ} {r : Option (Line ι)}
    (h : DisposesUnless faults st i r) (hok : ¬ faults) : Moves st [i] r := by
  obtain ⟨st', hst', hadds, hout⟩ := h.2 hok
  exact ⟨st', hst', hadds, hout ▸ Nat.le_succ _⟩

theorem keep_moves (h : st.outbuf.length < rxDescDefault) (buf : ℕ × Mbuf) :
    Moves st [buf.1] (st.keep buf) := by
  refine ⟨_, if_pos h, ?_, by simp⟩
  rw [Adds, Line.entries, Line.entries]
  simp

variable [DecidableEq ι]

theorem alService_eq_none_iff (sys : System) (stk : Stack) (thread : UInt8) {f : AlFargs}
    (pkt : Packet) (sh : Shared ι) (table : List (List ι)) (hf : f.ftype ≠ fltGslb) :
    alService sys stk thread f pkt sh table = none ↔
      2 ≤ sh.pool.length ∧ chooseMember sys stk f = none := by
  rw [alService, if_neg hf]
  rcases sh.pool with _ | ⟨c, _ | ⟨u, pool⟩⟩
  · simp
  · simp
  · simp only [List.length_cons, Nat.le_add_left, true_and, Shared.connect]
    cases hchoose : chooseMember sys stk f with
    | none => simp
    | some found =>
      cases found with
      | none => simp
      | some margs =>
        simp only [reduceCtorEq, iff_false]
        split
        · exact Option.some_ne_none _
        · split <;> exact Option.some_ne_none _

theorem adds_process (st : Line ι) (cfg : Setting) (x : ι) (buf : ℕ × Mbuf) (hdr : ℕ) :
    Adds st (st.process cfg x buf hdr) [buf.1] ∧ (st.process cfg x buf hdr).outbuf = st.outbuf :=
  ⟨adds_sendToSwitch .., outbuf_sendToSwitch ..⟩

theorem service_disposes (st : Line ι) (cfg : Setting) (out : Outside) (f : AlFargs) (buf : ℕ × Mbuf)
    (pkt : Packet) (hdr : ℕ) :
    DisposesUnless (st.ServiceFaults out f buf.2 hdr) st buf.1 (st.service cfg out f buf pkt hdr) := by
  unfold Line.ServiceFaults Line.service
  by_cases hf : f.ftype = fltGslb
  · rw [if_pos hf, if_pos hf]
    cases alGslbProcess out.names buf.2 hdr with
    | none => exact ⟨fun _ => rfl, fun h => absurd rfl h⟩
    | some r =>
      refine ⟨fun h => absurd h (Option.some_ne_none r), fun _ => ⟨_, rfl, ?_, ?_⟩⟩
      · exact adds_sendToSwitch cfg buf.2.port [(buf.1, r.1)] r.2 st
      · exact outbuf_sendToSwitch ..
  · rw [if_neg hf, if_neg hf, ← alService_eq_none_iff _ _ cfg.lcore pkt st.shared st.table hf]
    match alService out.sys out.stk cfg.lcore f pkt st.shared st.table with
    | none => exact ⟨fun _ => rfl, fun h => absurd rfl h⟩
    | some (some (c, u), shared, table) =>
      refine ⟨fun h => absurd h (Option.some_ne_none _), fun _ => ⟨_, rfl, ?_⟩⟩
      exact adds_process { st with shared, table } cfg c buf hdr
    | some (none, shared, table) =>
      refine ⟨fun h => absurd h (Option.some_ne_none _), fun _ => ⟨_, rfl, ?_, rfl⟩⟩
      exact adds_free { st with shared, table } buf

theorem miss_disposes (st : Line ι) (cfg : Setting) (out : Outside) (fromNic : Bool) (type : UInt8)
    (buf : ℕ × Mbuf) (pkt : Packet) (hdr : ℕ) :
    DisposesUnless (st.MissFaults cfg out fromNic buf.2 pkt hdr) st buf.1
      (st.miss cfg out fromNic type buf pkt hdr) := by
  unfold Line.MissFaults Line.miss
  cases st.owner fromNic pkt with
  | some thread =>
    by_cases hring : cfg.HasRing thread
    · refine ⟨fun h => absurd hring h, fun _ => ⟨_, if_pos hring, ?_, rfl⟩⟩
      exact adds_handOver st cfg _ [_]
    · exact ⟨fun _ => if_neg hring, fun h => absurd hring h⟩
  | none =>
    match filterSearch out.sys pkt with
    | none => exact ⟨fun _ => rfl, fun h => absurd trivial h⟩
    | some (some f) => exact service_disposes st cfg out f buf pkt hdr
    | some none =>
      refine ⟨False.elim, fun _ => ⟨_, rfl, ?_, ?_⟩⟩
      · exact adds_sendToSwitch cfg buf.2.port [buf] _ st
      · exact outbuf_sendToSwitch ..

theorem mainFrame_of_safe (type : UInt8) (h : st.outbuf.length < rxDescDefault)
    (hs : Safe cfg portid fromNic st a) : Moves st [a.buf] (mainFrame cfg portid fromNic type st a) := by
  unfold Safe at hs
  unfold mainFrame
  cases hclass : a.frame.classify with
  | bad => exact ⟨_, rfl, adds_free .., Nat.le_succ _⟩
  | arp => exact keep_moves h _
  | other => exact keep_moves h _
  | icmp6 =>
    rw [hclass] at hs
    exact hs.elim
  | ipv4 =>
    rw [hclass] at hs
    simp only [alIpv4Input]
    split
    · rename_i x hget
      obtain ⟨hadds, hout⟩ := adds_process st cfg x (a.buf, { a.frame with port := portid })
        (Mbuf.nextptr4 { a.frame with port := portid })
      exact ⟨_, rfl, hadds, hout ▸ Nat.le_succ _⟩
    · rename_i hget
      exact (miss_disposes ..).moves (hs hget)
  | ipv6 =>
    rw [hclass] at hs
    simp only [alIpv6Input, hs.1]
    exact (miss_disposes ..).moves hs.2

theorem mainFrame_of_not_safe (type : UInt8) (h : st.outbuf.length < rxDescDefault)
    (hs : ¬ Safe cfg portid fromNic st a) :
    Moves st [a.buf, a.buf] (mainFrame cfg portid fromNic type st a) ∨
      mainFrame cfg portid fromNic type st a = none := by
  unfold Safe at hs
  unfold mainFrame
  cases hclass : a.frame.classify with
  | bad | arp | other =>
    rw [hclass] at hs
    exact absurd trivial hs
  | icmp6 =>
    left
    let sent := sendToSwitch cfg (a.out.sys.vports a.frame.port).port [(a.buf, a.frame)] false st
    have hout : sent.outbuf = st.outbuf := outbuf_sendToSwitch ..
    have hfirst : Adds st sent [a.buf] := adds_sendToSwitch ..
    have hroom : sent.outbuf.length < rxDescDefault := by rwa [hout]
    obtain ⟨st', hst', hadds, hlen⟩ := keep_moves hroom (a.buf, a.frame)
    rw [hout] at hlen
    exact ⟨st', hst', hfirst.trans hadds, hlen⟩
  | ipv4 =>
    rw [hclass, Classical.not_imp, not_not] at hs
    right
    simp only [alIpv4Input, hs.1]
    exact (miss_disposes ..).1 hs.2
  | ipv6 =>
    right
    rw [hclass] at hs
    simp only [alIpv6Input]
    split
    · rfl
    · rename_i hget
      refine (miss_disposes ..).1 ?_
      by_contra hok
      exact hs ⟨hget, hok⟩

theorem mainFrame_grows (h : st.outbuf.length < rxDescDefault)
    (hstep : mainFrame cfg portid fromNic type st a = some st') :
    st.entries.length + 1 ≤ st'.entries.length ∧ st'.outbuf.length ≤ st.outbuf.length + 1 := by
  by_cases hs : Safe cfg portid fromNic st a
  · obtain ⟨_, hst, hadds, hlen⟩ := mainFrame_of_safe type h hs
    cases hstep.symm.trans hst
    exact ⟨hadds.length.ge, hlen⟩
  · rcases mainFrame_of_not_safe type h hs with ⟨_, hst, hadds, hlen⟩ | hnone
    · cases hstep.symm.trans hst
      have hlength := hadds.length
      rw [List.length_cons, List.length_singleton] at hlength
      exact ⟨by omega, hlen⟩
    · cases hstep.symm.trans hnone

theorem run_grows {as : List Arrival} (h : st.outbuf.length + as.length ≤ rxDescDefault)
    (hrun : as.foldlM (mainFrame cfg portid fromNic type) st = some st') :
    st.entries.length + as.length ≤ st'.entries.length := by
  induction as generalizing st with
  | nil =>
    cases hrun
    exact Nat.le_refl _
  | cons a as ih =>
    rw [List.length_cons] at h ⊢
    rw [List.foldlM_cons, Option.bind_eq_bind, Option.bind_eq_some_iff] at hrun
    obtain ⟨st₁, hstep, hrest⟩ := hrun
    obtain ⟨hgrows, hlen⟩ := mainFrame_grows (by omega) hstep
    have hmore := ih (by omega) hrest
    omega

theorem run_disposes_iff {as : List Arrival} (h : st.outbuf.length + as.length ≤ rxDescDefault) :
    (∃ st', as.foldlM (mainFrame cfg portid fromNic type) st = some st' ∧
        Adds st st' (as.map Arrival.buf)) ↔
      Runs.Guarded (mainFrame cfg portid fromNic type) (Safe cfg portid fromNic) st as := by
  induction as generalizing st with
  | nil =>
    refine ⟨fun _ => trivial, fun _ => ⟨st, rfl, ?_⟩⟩
    rw [Adds, List.map_nil, List.append_nil]
  | cons a as ih =>
    rw [List.length_cons] at h
    constructor
    · rintro ⟨st', hrun, hadds⟩
      rw [List.foldlM_cons, Option.bind_eq_bind, Option.bind_eq_some_iff] at hrun
      obtain ⟨st₁, hstep, hrest⟩ := hrun
      have hlen := (mainFrame_grows (by omega) hstep).2
      have hsafe : Safe cfg portid fromNic st a := by
        by_contra hs
        rcases mainFrame_of_not_safe type (by omega) hs with ⟨_, hst, htwice, -⟩ | hnone
        · cases hstep.symm.trans hst
          have hone := hadds.length
          have htwo := htwice.length
          have hmore := run_grows (by omega) hrest
          simp only [List.map_cons, List.length_cons, List.length_map, List.length_nil] at hone htwo
          omega
        · cases hstep.symm.trans hnone
      obtain ⟨_, hst, honce, -⟩ := mainFrame_of_safe type (by omega) hsafe
      cases hstep.symm.trans hst
      refine ⟨hsafe, fun s hs => ?_⟩
      cases hstep.symm.trans hs
      refine (ih (by omega)).mp ⟨st', hrest, ?_⟩
      rw [Adds, List.map_cons, List.append_cons] at hadds
      exact hadds.trans (List.Perm.append_right _ honce.symm)
    · rintro ⟨hsafe, hguard⟩
      obtain ⟨st₁, hstep, honce, hlen⟩ := mainFrame_of_safe type (by omega) hsafe
      obtain ⟨st', hrest, hadds⟩ := (ih (by omega)).mpr (hguard st₁ hstep)
      refine ⟨st', ?_, honce.trans hadds⟩
      rw [List.foldlM_cons, hstep]
      exact hrest

/-- The call comes to its end and each frame of the batch is freed once or handed over once. -/
def DisposedOnce (cfg : Setting) (portid : UInt8) (fromNic : Bool) (type : UInt8) (shared : Shared ι)
    (table : List (List ι)) (b : Batch) : Prop :=
  ∃ st, alMainProcess cfg portid fromNic type shared table b = some st ∧
    (st.log.map Disposal.buf).Perm (List.range b.frames.length)

theorem arrivals_buf (b : Batch) : b.arrivals.map Arrival.buf = List.range b.frames.length := by
  apply List.ext_getElem
  · simp [Batch.arrivals]
  · intro i _ _
    simp [Batch.arrivals]

/-- Every batch of every thread is disposed of once exactly when each of its frames is safe when
its turn comes. -/
theorem disposedOnce_iff (cfg : Setting) (portid : UInt8) (fromNic : Bool) (type : UInt8)
    (shared : Shared ι) (table : List (List ι)) (b : Batch) :
    DisposedOnce cfg portid fromNic type shared table b ↔
      Runs.Guarded (mainFrame cfg portid fromNic type) (Safe cfg portid fromNic)
        ⟨shared, table, 0, [], []⟩ b.arrivals := by
  have hsize : b.arrivals.length = b.frames.length := by simp [Batch.arrivals]
  have hroom : (⟨shared, table, 0, [], []⟩ : Line ι).outbuf.length + b.arrivals.length ≤ rxDescDefault := by
    rw [hsize, List.length_nil, Nat.zero_add]
    exact b.size
  -- the frames kept are handed over at the end
  have hend : ∀ st : Line ι, ((sendToSwitch cfg portid st.outbuf (type != portTypeKni)
      { st with outbuf := [] }).log.map Disposal.buf).Perm st.entries := by
    intro st
    have hadds := adds_sendToSwitch cfg portid st.outbuf (type != portTypeKni) { st with outbuf := [] }
    rw [Adds, Line.entries, outbuf_sendToSwitch, List.map_nil, List.append_nil, Line.entries, List.map_nil,
      List.append_nil] at hadds
    exact hadds
  rw [← run_disposes_iff hroom, arrivals_buf]
  constructor
  · rintro ⟨st, hst, hperm⟩
    obtain ⟨st₁, hrun, rfl⟩ := Option.map_eq_some_iff.mp hst
    exact ⟨st₁, hrun, (hend st₁).symm.trans hperm⟩
  · rintro ⟨st, hrun, hadds⟩
    refine ⟨_, Option.map_eq_some_iff.mpr ⟨st, hrun, rfl⟩, (hend st).trans hadds⟩

end Once

def icmpFrame : Mbuf :=
  single ([1, 1, 1, 1, 1, 1, 2, 2, 2, 2, 2, 2, 0x86, 0xdd, 0x60, 0, 0, 0, 1, 0, 58, 255] ++
    List.replicate 40 0) (by decide)

def oneFrame (m : Mbuf) : Batch :=
  ⟨[(m, ⟨addressless, blankStack, ⟨fun _ => false, fun _ => false, fun _ => false⟩⟩)],
    Nat.le_of_ble_eq_true rfl⟩

def idleSetting : Setting := ⟨0, 1, fun _ => 1, fun _ => 1⟩

theorem icmp6_handed_over_twice :
    ¬ DisposedOnce idleSetting 0 true 0 ⟨⟨[], []⟩, 1, fun _ => blankSession, []⟩ [] (oneFrame icmpFrame) := by
  rintro ⟨st, hst, hperm⟩
  have htwo : (alMainProcess idleSetting 0 true 0 ⟨⟨[], []⟩, 1, fun _ => blankSession, []⟩ []
      (oneFrame icmpFrame)).map (fun st => st.log.length) = some 2 := by
    decide +kernel
  rw [hst, Option.map_some, Option.some_inj] at htwo
  have hone := hperm.length_eq
  rw [List.length_map, htwo] at hone
  exact absurd hone (by decide)

end Aware.Frames
