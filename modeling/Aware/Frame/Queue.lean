import Aware.Frame.Once

/-!
# A frame from another thread

A frame whose session another thread owns goes through a ring to that thread. It is taken from the
ring with port `0`, whatever port it came in on; the type of its port travels in `udata64`.
-/
namespace Aware.Service
open Function Aware.Filter Aware.Member Aware.Sessions

section Port
variable {ι : Type} [DecidableEq ι] {sh : Shared ι} {c u : ι} {v : UInt8}

def Shared.rePort (sh : Shared ι) (c : ι) (v : UInt8) : Shared ι :=
  { sh with heap := update sh.heap c { sh.heap c with portid := v } }

theorem rePort_of_ne (h : u ≠ c) : (sh.rePort c v).heap u = sh.heap u :=
  update_of_ne h _ _

@[simp] theorem rePort_self : (sh.rePort c v).heap c = { sh.heap c with portid := v } :=
  update_self ..

theorem rePort_free (x : ι) : (sh.rePort c v).free x = (sh.free x).rePort c v := by
  have hports : alSessionFree sh.ports ((sh.rePort c v).heap x) =
      alSessionFree sh.ports (sh.heap x) := by
    rcases eq_or_ne x c with rfl | hne
    · rw [rePort_self]
      rfl
    · rw [rePort_of_ne hne]
  unfold Shared.free
  rw [Shared.rePort] at hports ⊢
  rw [hports]
  rfl

theorem rePort_update (h : u ≠ c) (s : Session ι) :
    { sh.rePort c v with heap := update (sh.rePort c v).heap u s } =
      ({ sh with heap := update sh.heap u s } : Shared ι).rePort c v := by
  simp only [Shared.rePort, update_of_ne h.symm, update_comm h]

theorem rePort_adopt (h : u ≠ c) : (sh.rePort c v).adopt c u = (sh.adopt c u).rePort c v := by
  unfold Shared.adopt
  rw [rePort_of_ne h, rePort_self]
  exact rePort_update h _

theorem rePort_bind (h : u ≠ c) (sys : System) (thread : UInt8) (pkt : Packet) (tgt : Target)
    (p : UInt8) :
    (sh.rePort c v).bind sys thread u { pkt with port := p } tgt =
      ((sh.bind sys thread u pkt tgt).1, (sh.bind sys thread u pkt tgt).2.rePort c v) := by
  have hsame : bindRemote sys thread (sh.rePort c v).ports (sh.rePort c v).portStart
      ((sh.rePort c v).heap u) { pkt with port := p } tgt =
        bindRemote sys thread sh.ports sh.portStart (sh.heap u) pkt tgt := by
    rw [rePort_of_ne h]
    rfl
  unfold Shared.bind
  rw [hsame]
  simp only [Shared.rePort, update_of_ne h.symm, update_comm h]

theorem key_rePort (x : ι) : ((sh.rePort c v).heap x).key = (sh.heap x).key := by
  rcases eq_or_ne x c with rfl | hne
  · rw [rePort_self]
    rfl
  · rw [rePort_of_ne hne]

theorem rePort_pair (h : u ≠ c) (up : Session ι) (f : AlFargs) :
    (sh.rePort c v).pair c u up f = (sh.pair c u up f).rePort c v := by
  have hheap : ((sh.rePort c v).pair c u up f).heap = ((sh.pair c u up f).rePort c v).heap := by
    funext x
    rcases eq_or_ne x c with rfl | hne
    · rw [rePort_self]
      simp only [Shared.pair, update_self, rePort_self]
    · rw [rePort_of_ne hne]
      simp only [Shared.pair, update_of_ne hne]
      rcases eq_or_ne x u with rfl | hne'
      · simp only [update_self]
      · simp only [update_of_ne hne', rePort_of_ne hne]
  exact congrArg (fun heap => (⟨sh.ports, sh.portStart, heap, sh.pool⟩ : Shared ι)) hheap

theorem rePort_complete (h : u ≠ c) (sys : System) (f : AlFargs) (pkt : Packet) (tgt : Target)
    (table : List (List ι)) (p : UInt8) :
    (sh.rePort c v).complete sys f { pkt with port := p } c u tgt table =
      ((sh.complete sys f pkt c u tgt table).1, (sh.complete sys f pkt c u tgt table).2.1.rePort c v,
        (sh.complete sys f pkt c u tgt table).2.2) := by
  unfold Shared.complete
  rw [rePort_of_ne h]
  cases resolve sys (sh.heap u) pkt.family tgt with
  | none => simp only [rePort_free]
  | some up => simp only [rePort_pair h, alSessionAdd, key_rePort]

theorem rePort_connect (h : u ≠ c) (sys : System) (stk : Stack) (thread : UInt8) (f : AlFargs)
    (pkt : Packet) (table : List (List ι)) (p : UInt8) :
    (sh.rePort c v).connect sys stk thread f { pkt with port := p } c u table =
      (sh.connect sys stk thread f pkt c u table).map fun r => (r.1, r.2.1.rePort c v, r.2.2) := by
  unfold Shared.connect
  cases chooseMember sys stk f with
  | none => rfl
  | some margs =>
    cases margs with
    | none => simp only [rePort_free, Option.map_some]
    | some margs =>
      simp only [rePort_adopt h]
      cases routeTo sys stk.nexthop margs.addr with
      | none => simp only [rePort_free, Option.map_some]
      | some hop =>
        simp only [rePort_bind h]
        cases (sh.adopt c u).bind sys thread u pkt ⟨margs, hop.1, hop.2⟩ with
        | mk entered sh' =>
          cases entered with
          | false => simp only [rePort_free, Option.map_some]
          | true => simp only [rePort_complete h, Option.map_some]

theorem rePort_openUpstream (sys : System) (f : AlFargs) (pkt : Packet) (p : UInt8) :
    sh.openUpstream sys c u f { pkt with port := p } =
      (sh.openUpstream sys c u f pkt).rePort c (sys.vports p).port := by
  simp only [Shared.openUpstream, Shared.rePort, update_self, update_idem]
  rfl

theorem connect_cases (sh : Shared ι) (h : u ≠ c) (sys : System) (stk : Stack) (thread : UInt8)
    (f : AlFargs) (pkt : Packet) (table : List (List ι)) :
    sh.connect sys stk thread f pkt c u table = none ∨
      (∃ sh', sh.connect sys stk thread f pkt c u table = some (none, sh', table) ∧ c ∈ sh'.pool) ∨
      ∃ sh' table', sh.connect sys stk thread f pkt c u table = some (some (c, u), sh', table') ∧
        sh'.pool = sh.pool ∧ (sh'.heap c).portid = (sh.heap c).portid := by
  unfold Shared.connect
  cases chooseMember sys stk f with
  | none => exact .inl rfl
  | some margs =>
    right
    cases margs with
    | none => exact .inl ⟨_, rfl, by simp [Shared.free]⟩
    | some margs =>
      simp only
      cases routeTo sys stk.nexthop margs.addr with
      | none => exact .inl ⟨_, rfl, by simp [Shared.free]⟩
      | some hop =>
        simp only
        cases hb : (sh.adopt c u).bind sys thread u pkt ⟨margs, hop.1, hop.2⟩ with
        | mk entered sh' =>
          cases entered with
          | false => exact .inl ⟨_, rfl, by simp [Shared.free]⟩
          | true =>
            have hsh : sh' = ((sh.adopt c u).bind sys thread u pkt ⟨margs, hop.1, hop.2⟩).2 := by
              rw [hb]
            have hport : (sh'.heap c).portid = (sh.heap c).portid := by
              rw [hsh]
              simp only [Shared.bind, Shared.adopt, update_of_ne h.symm]
            simp only [Shared.complete]
            cases resolve sys (sh'.heap u) pkt.family ⟨margs, hop.1, hop.2⟩ with
            | none => exact .inl ⟨_, rfl, by simp [Shared.free]⟩
            | some up =>
              exact .inr ⟨_, _, rfl, by rw [hsh]; rfl, by simpa [Shared.pair] using hport⟩

end Port

end Aware.Service

namespace Aware.Frames
open Aware.Filter Aware.Member Aware.Memory Aware.OnesSum Aware.Service Aware.Sessions

def Mbuf.tag (m : Mbuf) (port : UInt8) (udata64 : UInt64) : Mbuf :=
  { m with port, udata64 }

def Mbuf.bare (m : Mbuf) : Mbuf :=
  m.tag 0 0

def Disposal.bare (d : Disposal) : Disposal :=
  { d with frame := d.frame.bare }

section Model
variable {ι : Type} [DecidableEq ι]

def Line.unowned (st : Line ι) (cfg : Setting) (out : Outside) (fromNic : Bool) (type : UInt8)
    (buf : ℕ × Mbuf) (pkt : Packet) (hdr : ℕ) : Option (Line ι) :=
  match filterSearch out.sys pkt with
  | none => none
  | some (some f) => st.service cfg out f buf pkt hdr
  | some none =>
    let toKni := if fromNic then type != portTypeKni else buf.2.udata64 != portTypeKni.toUInt64
    some (sendToSwitch cfg buf.2.port [buf] toKni st)

def directFrame (cfg : Setting) (portid type : UInt8) (st : Line ι) (a : Arrival) :
    Option (Line ι) :=
  let m := { a.frame with port := portid }
  match a.frame.classify with
  | .ipv4 =>
    match sessionGet st.table st.shared.heap m.packet4.inputKey with
    | some x => some (st.process cfg x (a.buf, m) m.nextptr4)
    | none => st.unowned cfg a.out true type (a.buf, m) m.packet4 m.nextptr4
  | .ipv6 =>
    match sessionGet st.table st.shared.heap m.packet6.inputKey with
    | some _ => none
    | none => st.unowned cfg a.out true type (a.buf, m) m.packet6 Mbuf.nextptr6
  | _ => mainFrame cfg portid true type st a

/-- Both have done the same: the tables, the live sessions and the hand-overs agree, and the
frames handed over have the same bytes. -/
structure Line.Same (st st' : Line ι) : Prop where
  ports : st'.shared.ports = st.shared.ports
  portStart : st'.shared.portStart = st.shared.portStart
  pool : st'.shared.pool = st.shared.pool
  heap : ∀ x ∉ st.shared.pool, st'.shared.heap x = st.shared.heap x
  table : st'.table = st.table
  calls : st'.calls = st.calls
  outbuf : st'.outbuf = st.outbuf
  log : st'.log.map Disposal.bare = st.log.map Disposal.bare

def Agree : Option (Line ι) → Option (Line ι) → Prop
  | none, none => True
  | some st, some st' => st.Same st'
  | _, _ => False

end Model

section Tag
variable {ι : Type} {m : Mbuf} {p : UInt8} {u : UInt64}

@[simp] theorem tag_mem : (m.tag p u).mem = m.mem := rfl

@[simp] theorem tag_etherType : (m.tag p u).etherType = m.etherType := rfl

@[simp] theorem tag_write (off : ℕ) (bs : List UInt8) :
    (m.tag p u).write off bs = (m.write off bs).tag p u := rfl

theorem alProcess_tag (s up : Session ι) (hdr : ℕ) :
    alProcess s up (m.tag p u) hdr = (alProcess s up m hdr).tag p u := by
  unfold alProcess
  split
  · unfold setHardware
    split <;> rfl
  · have hends : setEnds s up (m.tag p u) hdr = (setEnds s up m hdr).tag p u := by
      unfold setEnds setHardware
      cases s.isDr <;> cases up.inType <;> rfl
    have hsum : setTransportChksum up.inType (setEnds s up (m.tag p u) hdr) hdr =
        (setTransportChksum up.inType (setEnds s up m hdr) hdr).tag p u := by
      rw [hends]
      cases up.inType <;> rfl
    simp only [hsum]
    cases up.inType <;> rfl

def gslbAnswer (names : Names) (m : Mbuf) (hdr : ℕ) (queryType : UInt8) (len : ℕ) :
    Option (Mbuf × Bool) :=
  if queryType ≠ dnsQA ∧ queryType ≠ dnsQAaaa ∨ queryType ≠ dnsQClassIn then
    some (notImplemented m hdr, false)
  else if names.dns (List.replicate len 46) = false then some (m, true)
  else
    let found :=
      if m.etherType = etherTypeIpv4 then names.geoip (BitVec.ofNat 32 (field m.mem 26 4))
      else m.etherType = etherTypeIpv6 && names.geoip6 (BitVec.ofNat 128 (field m.mem 22 16))
    if found then none else some (m, true)

theorem gslbAnswer_tag {names : Names} {hdr : ℕ} {queryType : UInt8} {len : ℕ} :
    gslbAnswer names (m.tag p u) hdr queryType len =
      (gslbAnswer names m hdr queryType len).map fun r => (r.1.tag p u, r.2) := by
  dsimp only [gslbAnswer]
  rw [tag_etherType, tag_mem]
  split_ifs <;> rfl

theorem alGslbProcess_tag (names : Names) (hdr : ℕ) :
    alGslbProcess names (m.tag p u) hdr =
      (alGslbProcess names m hdr).map fun r => (r.1.tag p u, r.2) := by
  unfold alGslbProcess
  dsimp only
  rw [tag_mem, tag_write]
  generalize htons (field16 m.mem (hdr + 10)) = flag
  generalize m.write (hdr + 10) (leBytes 2 flag.toNat) = m
  by_cases hquery : flag.toNat / 32768 = 0
  · rw [if_pos hquery, if_pos hquery, Option.map_some]
  · by_cases hkind : field16 m.mem (hdr + 12) ≠ 1 ∨ flag.toNat / 2048 % 16 ≠ 0
    · rw [if_neg hquery, if_neg hquery, tag_mem, if_pos hkind, if_pos hkind]
      rfl
    · rw [if_neg hquery, if_neg hquery, tag_mem, if_neg hkind, if_neg hkind]
      generalize dnsParseName 2 m.mem (hdr + 20) 0 0 = parsed
      obtain ⟨mem, _ | ⟨query, len⟩⟩ := parsed
      · rfl
      · exact gslbAnswer_tag (m := { m with mem })

end Tag

section Same
variable {ι : Type} {st st' : Line ι} {cfg : Setting} {i hdr : ℕ} {m m' : Mbuf}

theorem bare_tag (m : Mbuf) (p : UInt8) (u : UInt64) : (m.tag p u).bare = m.bare := rfl

theorem alProcess_bare (s up : Session ι) (hm : m'.bare = m.bare) :
    (alProcess s up m' hdr).bare = (alProcess s up m hdr).bare := by
  have htag (n : Mbuf) : alProcess s up n.bare hdr = (alProcess s up n hdr).bare := alProcess_tag s up hdr
  rw [← htag, ← htag, hm]

theorem Line.Same.handOver (h : st.Same st') (hm : m'.bare = m.bare) (fate : Fate) :
    (st.handOver cfg fate [(i, m)]).Same (st'.handOver cfg fate [(i, m')]) where
  ports := h.ports
  portStart := h.portStart
  pool := h.pool
  heap := h.heap
  table := h.table
  calls := congrArg (· + 1) h.calls
  outbuf := h.outbuf
  log := by
    simp only [Line.handOver, List.map_append, h.log, h.calls]
    cases cfg.accepts st.calls <;> simp [Disposal.bare, hm]

theorem Line.Same.sendToSwitch (h : st.Same st') (hm : m'.bare = m.bare) (portid : UInt8)
    (toKni : Bool) :
    (sendToSwitch cfg portid [(i, m)] toKni st).Same (sendToSwitch cfg portid [(i, m')] toKni st') := by
  unfold Frames.sendToSwitch kniBurstWrite
  split_ifs <;> exact h.handOver hm _

theorem Line.Same.free (h : st.Same st') (hm : m'.bare = m.bare) :
    (st.free (i, m)).Same (st'.free (i, m')) where
  ports := h.ports
  portStart := h.portStart
  pool := h.pool
  heap := h.heap
  table := h.table
  calls := h.calls
  outbuf := h.outbuf
  log := by simp [Line.free, h.log, Disposal.bare, hm]

theorem Line.Same.refl (st : Line ι) : st.Same st :=
  ⟨rfl, rfl, rfl, fun _ _ => rfl, rfl, rfl, rfl, rfl⟩

def switchFate (cfg : Setting) (portid : UInt8) (toKni : Bool) : Fate :=
  if toKni then if cfg.lcore < cfg.kniQcnt portid then .kni portid else .kniRing portid cfg.lcore
  else .vport portid cfg.lcore

theorem switchFate_inj {p q : UInt8} {toKni : Bool}
    (h : switchFate cfg p toKni = switchFate cfg q toKni) : p = q := by
  unfold switchFate at h
  split_ifs at h <;> cases h <;> rfl

theorem sendToSwitch_eq (portid : UInt8) (bufs : List (ℕ × Mbuf)) (toKni : Bool) :
    sendToSwitch cfg portid bufs toKni st = st.handOver cfg (switchFate cfg portid toKni) bufs := by
  unfold sendToSwitch kniBurstWrite switchFate
  split_ifs <;> rfl

theorem sendToSwitch_same_iff (hm : m'.bare = m.bare) {p q : UInt8} {toKni : Bool} :
    (∀ accepts, (sendToSwitch { cfg with accepts } p [(i, m)] toKni st).Same
      (sendToSwitch { cfg with accepts } q [(i, m')] toKni st)) ↔ p = q := by
  constructor
  · intro h
    have hlog := (h fun _ => 1).log
    rw [sendToSwitch_eq, sendToSwitch_eq] at hlog
    simp only [Line.handOver, List.take_one, List.head?_cons, Option.toList_some, List.map_append,
      List.map_cons, List.map_nil, List.drop_one, List.tail_cons, List.append_nil,
      List.append_cancel_left_eq, List.cons.injEq, and_true] at hlog
    exact (switchFate_inj (congrArg Disposal.fate hlog)).symm
  · rintro rfl accepts
    exact (Line.Same.refl st).sendToSwitch hm p toKni

def Line.NoRing (st : Line ι) (r : Option (Line ι)) : Prop :=
  ∀ st' ∈ r, ∀ d, st'.log = st.log ++ [d] → ∀ t s, d.fate ≠ .threadRing t s

variable {st₀ : Line ι}

theorem noRing_handOver {fate : Fate} (hfate : ∀ t s, fate ≠ .threadRing t s)
    (hlog : st₀.log = st.log) (b : ℕ × Mbuf) :
    st.NoRing (some (st₀.handOver cfg fate [b])) := by
  rintro _ ⟨⟩ d hd t s
  have hone : d.fate = fate ∨ d.fate = .freed := by
    simp only [Line.handOver, hlog] at hd
    cases haccepts : cfg.accepts st₀.calls with
    | zero =>
      simp only [haccepts, List.take_zero, List.drop_zero, List.map_nil, List.append_nil,
        List.map_cons, List.append_cancel_left_eq, List.cons.injEq, and_true] at hd
      exact .inr (congrArg Disposal.fate hd).symm
    | succ k =>
      simp only [haccepts, List.take_succ_cons, List.take_nil, List.drop_succ_cons, List.drop_nil,
        List.map_nil, List.append_nil, List.map_cons, List.append_cancel_left_eq, List.cons.injEq,
        and_true] at hd
      exact .inl (congrArg Disposal.fate hd).symm
  rcases hone with hone | hone
  · rw [hone]
    exact hfate t s
  · rw [hone]
    exact Fate.noConfusion

theorem noRing_sendToSwitch (hlog : st₀.log = st.log) (portid : UInt8) (b : ℕ × Mbuf)
    (toKni : Bool) : st.NoRing (some (sendToSwitch cfg portid [b] toKni st₀)) := by
  rw [sendToSwitch_eq]
  refine noRing_handOver (fun t s => ?_) hlog b
  unfold switchFate
  split_ifs <;> exact Fate.noConfusion

theorem noRing_free (hlog : st₀.log = st.log) (b : ℕ × Mbuf) : st.NoRing (some (st₀.free b)) := by
  rintro _ ⟨⟩ d hd t s
  simp only [Line.free, hlog, List.append_cancel_left_eq, List.cons.injEq, and_true] at hd
  rw [← hd]
  exact Fate.noConfusion

end Same

section Service
variable {ι : Type} [DecidableEq ι] {st : Line ι} {cfg : Setting} {i hdr : ℕ} {m m' : Mbuf}

theorem process_same (x : ι) (hm : m'.bare = m.bare) :
    (st.process cfg x (i, m) hdr).Same (st.process cfg x (i, m') hdr) :=
  (Line.Same.refl _).sendToSwitch (alProcess_bare _ _ hm) _ _

theorem process_rePort_same_iff (st : Line ι) (cfg : Setting) (hdr i : ℕ) {c : ι} (v : UInt8)
    (hc : c ∉ st.shared.pool) (hm : m'.bare = m.bare) :
    (st.process cfg c (i, m) hdr).Same
        ({ st with shared := st.shared.rePort c v }.process cfg c (i, m') hdr) ↔
      v = (st.shared.heap c).portid := by
  constructor
  · intro h
    have hpool : c ∉ (st.process cfg c (i, m) hdr).shared.pool := hc
    have hheap := congrArg Session.portid (h.heap c hpool)
    simpa [Line.process, sendToSwitch, Line.handOver] using hheap
  · rintro rfl
    have hid : st.shared.rePort c (st.shared.heap c).portid = st.shared := by
      simp [Shared.rePort]
    rw [hid]
    exact process_same c hm

def opens (sys : System) (stk : Stack) (thread : UInt8) (f : AlFargs) (pkt : Packet)
    (sh : Shared ι) (table : List (List ι)) : Bool :=
  match alService sys stk thread f pkt sh table with
  | some (some _, _, _) => true
  | _ => false

theorem service_agree_iff (hpool : st.shared.pool.Nodup) (cfg : Setting) (out : Outside)
    {f : AlFargs} (hf : f.ftype ≠ fltGslb) (pkt : Packet) (q : UInt8) (hdr i : ℕ)
    (hm : m'.bare = m.bare) :
    Agree (st.service cfg out f (i, m) pkt hdr)
        (st.service cfg out f (i, m') { pkt with port := q } hdr) ↔
      opens out.sys out.stk cfg.lcore f pkt st.shared st.table = false ∨
        (out.sys.vports pkt.port).port = (out.sys.vports q).port := by
  simp only [Line.service, if_neg hf, opens]
  cases hp : st.shared.pool with
  | nil =>
    simp only [alService, if_neg hf, hp, true_or, iff_true]
    exact (Line.Same.refl _).free hm
  | cons c pool =>
    cases pool with
    | nil =>
      simp only [alService, if_neg hf, hp, true_or, iff_true]
      exact (Line.Same.refl _).free hm
    | cons u pool =>
      have hc : c ∉ pool := by simp_all
      have hne : u ≠ c := by
        rintro rfl
        simp [hp] at hpool
      simp only [alService, if_neg hf, hp]
      rw [rePort_openUpstream (p := q), rePort_connect hne (p := q)]
      generalize hsh : ({ st.shared with pool }.openClient c f).openUpstream out.sys c u f pkt = sh
      have hfirst : sh.pool = pool := by rw [← hsh]; rfl
      have hport : (sh.heap c).portid = (out.sys.vports pkt.port).port := by
        rw [← hsh]
        simp [Shared.openUpstream, sessionInitLocal]
      obtain hcon | ⟨sh', hcon, hback⟩ | ⟨sh', table', hcon, hkeep, hsame⟩ :=
        connect_cases sh hne out.sys out.stk cfg.lcore f pkt st.table
      · simp [hcon, Agree]
      · -- the two sessions are back in the pool, and what they hold does not count
        simp only [hcon, Option.map_some, true_or, iff_true]
        refine Line.Same.free ⟨rfl, rfl, rfl, ?_, rfl, rfl, rfl, rfl⟩ hm
        intro x hx
        exact rePort_of_ne fun hxc => hx (hxc ▸ hback)
      · simp only [hcon, Option.map_some, Bool.true_eq_false, false_or]
        have hout : c ∉ sh'.pool := by rwa [hkeep, hfirst]
        have hiff := process_rePort_same_iff { st with shared := sh', table := table' } cfg hdr i
          (out.sys.vports q).port hout hm
        rw [hsame, hport] at hiff
        exact hiff.trans eq_comm

theorem gslb_agree_iff (out : Outside) {f : AlFargs} (hf : f.ftype = fltGslb) (pkt pkt' : Packet)
    (p q : UInt8) (w w' : UInt64) :
    (∀ accepts, Agree (st.service { cfg with accepts } out f (i, m.tag p w) pkt hdr)
        (st.service { cfg with accepts } out f (i, m.tag q w') pkt' hdr)) ↔
      alGslbProcess out.names m hdr = none ∨ p = q := by
  simp only [Line.service, if_pos hf, alGslbProcess_tag]
  cases alGslbProcess out.names m hdr with
  | none => simp [Agree]
  | some r =>
    simp only [Option.map_some, reduceCtorEq, false_or]
    exact sendToSwitch_same_iff (by rw [bare_tag, bare_tag])

/-- Whether the frame ends in the same way on port `0`: it has a session, or the port is `0`, or
no use is made of it. -/
def Line.indifferent (st : Line ι) (thread : UInt8) (out : Outside) (m : Mbuf) (pkt : Packet)
    (hdr : ℕ) : Prop :=
  match sessionGet st.table st.shared.heap pkt.inputKey with
  | some _ => True
  | none =>
    match filterSearch out.sys pkt with
    | none => True
    | some none => pkt.port = 0
    | some (some f) =>
      if f.ftype = fltGslb then alGslbProcess out.names m hdr = none ∨ pkt.port = 0
      else opens out.sys out.stk thread f pkt st.shared st.table = false ∨
        (out.sys.vports pkt.port).port = (out.sys.vports 0).port

theorem toUInt64_bne (type : UInt8) :
    (type.toUInt64 != portTypeKni.toUInt64) = (type != portTypeKni) := by
  rw [Bool.eq_iff_iff, bne_iff_ne, bne_iff_ne, ne_eq, UInt8.toUInt64_inj]

theorem unowned_agree_iff (hpool : st.shared.pool.Nodup) (cfg : Setting) (out : Outside)
    (type type' : UInt8) (pkt : Packet) (w : UInt64) (m : Mbuf) (hdr i : ℕ)
    (hmiss : sessionGet st.table st.shared.heap pkt.inputKey = none) :
    (∀ accepts, Agree
        (st.unowned { cfg with accepts } out true type (i, m.tag pkt.port w) pkt hdr)
        (st.unowned { cfg with accepts } out false type' (i, m.tag 0 type.toUInt64)
          { pkt with port := 0 } hdr)) ↔
      st.indifferent cfg.lcore out m pkt hdr := by
  have hsearch : filterSearch out.sys { pkt with port := 0 } = filterSearch out.sys pkt := rfl
  simp only [Line.unowned, Line.indifferent, hmiss, hsearch]
  cases filterSearch out.sys pkt with
  | none => simp [Agree]
  | some found =>
    cases found with
    | none =>
      simp only [if_true, Bool.false_eq_true, if_false]
      have hkni : ((m.tag 0 type.toUInt64).udata64 != portTypeKni.toUInt64) = (type != portTypeKni) :=
        toUInt64_bne type
      rw [hkni]
      exact sendToSwitch_same_iff (by rw [bare_tag, bare_tag])
    | some f =>
      simp only
      by_cases hf : f.ftype = fltGslb
      · rw [if_pos hf]
        exact gslb_agree_iff out hf pkt _ pkt.port 0 w _
      · rw [if_neg hf]
        have hbare : (m.tag 0 type.toUInt64).bare = (m.tag pkt.port w).bare := rfl
        have hone (accepts : ℕ → ℕ) :=
          service_agree_iff hpool { cfg with accepts } out hf pkt 0 hdr i hbare
        simp only [hone, forall_const]

end Service

section Hand
variable {ι : Type} [DecidableEq ι] {st st' : Line ι} {cfg : Setting} {i hdr : ℕ} {m m' : Mbuf}

def Mbuf.carried (m : Mbuf) (thread : UInt8) (st : Line ι) (out : Outside) : Prop :=
  match m.classify with
  | .ipv4 => st.indifferent thread out m m.packet4 m.nextptr4
  | .ipv6 => st.indifferent thread out m m.packet6 Mbuf.nextptr6
  | _ => True

/-- The thread does with `m'` from its ring what it would do with the frame `m` that came in on
port `portid` of type `type`. -/
def EndsAlike (cfg : Setting) (portid type type' : UInt8) (st : Line ι) (i : ℕ) (m m' : Mbuf)
    (out : Outside) : Prop :=
  ∀ accepts, Agree (directFrame { cfg with accepts } portid type st ⟨i, m, out⟩)
    (mainFrame { cfg with accepts } 0 false type' st ⟨i, m', out⟩)

theorem dequeued_agree_iff (hclass : m.classify = .ipv4 ∨ m.classify = .ipv6)
    (hpool : st.shared.pool.Nodup) (portid type type' : UInt8) (out : Outside) :
    EndsAlike cfg portid type type' st i m (m.tag portid type.toUInt64) out ↔
      (m.tag portid m.udata64).carried cfg.lcore st out := by
  have htag (p : UInt8) (w : UInt64) : (m.tag p w).classify = m.classify := rfl
  have hbare (p q : UInt8) (w w' : UInt64) : (m.tag p w).bare = (m.tag q w').bare := rfl
  unfold EndsAlike Mbuf.carried directFrame mainFrame
  rcases hclass with hclass | hclass
  · simp only [htag, hclass, alIpv4Input]
    have hkey : ({ m.tag portid type.toUInt64 with port := 0 } : Mbuf).packet4.inputKey =
        (m.tag portid m.udata64).packet4.inputKey := rfl
    have hkey' : ({ m with port := portid } : Mbuf).packet4.inputKey =
        (m.tag portid m.udata64).packet4.inputKey := rfl
    rw [hkey, hkey']
    cases hget : sessionGet st.table st.shared.heap (m.tag portid m.udata64).packet4.inputKey with
    | some x =>
      simp only [Line.indifferent, hget, iff_true]
      exact fun accepts => process_same x (hbare 0 portid _ _)
    | none =>
      exact unowned_agree_iff hpool cfg out type type' (m.tag portid m.udata64).packet4 m.udata64
        (m.tag portid m.udata64) m.nextptr4 i hget
  · simp only [htag, hclass, alIpv6Input]
    have hkey : ({ m.tag portid type.toUInt64 with port := 0 } : Mbuf).packet6.inputKey =
        (m.tag portid m.udata64).packet6.inputKey := rfl
    have hkey' : ({ m with port := portid } : Mbuf).packet6.inputKey =
        (m.tag portid m.udata64).packet6.inputKey := rfl
    rw [hkey, hkey']
    cases hget : sessionGet st.table st.shared.heap (m.tag portid m.udata64).packet6.inputKey with
    | some x =>
      simp only [Line.indifferent, hget, iff_true]
      exact fun accepts => trivial
    | none =>
      exact unowned_agree_iff hpool cfg out type type' (m.tag portid m.udata64).packet6 m.udata64
        (m.tag portid m.udata64) Mbuf.nextptr6 i hget

theorem noRing_service (out : Outside) (f : AlFargs) (b : ℕ × Mbuf) (pkt : Packet) :
    st.NoRing (st.service cfg out f b pkt hdr) := by
  unfold Line.service
  split
  · cases alGslbProcess out.names b.2 hdr with
    | none => rintro _ ⟨⟩
    | some r => exact noRing_sendToSwitch rfl _ _ _
  · split
    · rintro _ ⟨⟩
    · exact noRing_sendToSwitch rfl _ _ _
    · exact noRing_free rfl b

variable {out : Outside} {type t : UInt8}

theorem miss_handed {pkt : Packet} {m₀ : Mbuf} {s : UInt8}
    (hs : st.miss cfg out true type (i, m₀) pkt hdr = some st')
    (hlog : st'.log = st.log ++ [⟨i, m', .threadRing t s⟩]) :
    m' = { m₀ with udata64 := type.toUInt64 } := by
  unfold Line.miss at hs
  split at hs
  · split at hs
    · cases hs
      simp only [Line.handOver] at hlog
      cases haccepts : cfg.accepts st.calls with
      | zero => simp [haccepts] at hlog
      | succ k =>
        simp only [haccepts, List.take_succ_cons, List.take_nil, List.drop_succ_cons,
          List.drop_nil, List.map_nil, List.append_nil, List.map_cons,
          List.append_cancel_left_eq, List.cons.injEq, and_true] at hlog
        exact (congrArg Disposal.frame hlog).symm
    · cases hs
  · split at hs
    · cases hs
    · next f _ => exact absurd rfl (noRing_service out f (i, m₀) pkt st' hs _ hlog t s)
    · exact absurd rfl (noRing_sendToSwitch rfl _ _ _ st' hs _ hlog t s)

theorem mainFrame_handed {portid : UInt8} {s : UInt8}
    (hs : mainFrame cfg portid true type st ⟨i, m, out⟩ = some st')
    (hlog : st'.log = st.log ++ [⟨i, m', .threadRing t s⟩]) :
    (m.classify = .ipv4 ∨ m.classify = .ipv6) ∧ m' = m.tag portid type.toUInt64 := by
  have hkeep {st₀ : Line ι} {b : ℕ × Mbuf} (h : st₀.keep b = some st') : st'.log = st₀.log := by
    unfold Line.keep at h
    split at h
    · cases h
      rfl
    · cases h
  unfold mainFrame at hs
  cases hclass : m.classify with
  | bad =>
    rw [hclass] at hs
    exact absurd rfl (noRing_free rfl _ st' hs _ hlog t s)
  | ipv4 =>
    rw [hclass] at hs
    refine ⟨.inl rfl, ?_⟩
    simp only [alIpv4Input] at hs
    split at hs
    · exact absurd rfl (noRing_sendToSwitch rfl _ _ _ st' hs _ hlog t s)
    · exact miss_handed hs hlog
  | ipv6 =>
    rw [hclass] at hs
    refine ⟨.inr rfl, ?_⟩
    simp only [alIpv6Input] at hs
    split at hs
    · cases hs
    · exact miss_handed hs hlog
  | icmp6 =>
    rw [hclass] at hs
    rw [hkeep hs] at hlog
    exact absurd rfl (noRing_sendToSwitch rfl _ _ _ _ rfl _ hlog t s)
  | arp =>
    rw [hclass] at hs
    simp [hkeep hs] at hlog
  | other =>
    rw [hclass] at hs
    simp [hkeep hs] at hlog

/-- A frame put into another thread's ring ends as it would have without the ring exactly when
`carried` says so of the state in which it is taken out. -/
theorem handed_over_alike_iff {cfg₀ : Setting} {portid type : UInt8} {st₀ st₁ : Line ι} {j : ℕ}
    {out₀ : Outside} {t s : UInt8} (hs : mainFrame cfg₀ portid true type st₀ ⟨j, m, out₀⟩ = some st₁)
    (hlog : st₁.log = st₀.log ++ [⟨j, m', .threadRing t s⟩]) (hpool : st.shared.pool.Nodup)
    (type' : UInt8) (out : Outside) :
    EndsAlike cfg portid type type' st i m m' out ↔
      (m.tag portid m.udata64).carried cfg.lcore st out := by
  obtain ⟨hclass, rfl⟩ := mainFrame_handed hs hlog
  exact dequeued_agree_iff hclass hpool portid type type' out

theorem mainFrame_hands_over {portid : UInt8} (hclass : m.classify = .ipv4)
    (hget : sessionGet st.table st.shared.heap m.packet4.inputKey = none)
    (howner : st.shared.ports.whichThread m.packet4.key = some t) (hring : cfg.HasRing t)
    (haccepts : cfg.accepts st.calls = 1) :
    mainFrame cfg portid true type st ⟨i, m, out⟩ = some { st with
      calls := st.calls + 1
      log := st.log ++ [⟨i, m.tag portid type.toUInt64, .threadRing t cfg.lcore⟩] } := by
  have hkey : ({ m with port := portid } : Mbuf).packet4.inputKey = m.packet4.inputKey := rfl
  have htell : st.owner true ({ m with port := portid } : Mbuf).packet4 = some t := howner
  simp only [mainFrame, hclass, alIpv4Input, hkey, hget, Line.miss, htell, if_pos hring,
    Line.handOver, haccepts, List.take_succ_cons, List.take_zero, List.drop_succ_cons,
    List.drop_zero, List.map_cons, List.map_nil, List.append_nil]
  rfl

end Hand

def ownedElsewhere : Line ℕ :=
  ⟨⟨Ports.insert ⟨[], []⟩ tcpFrame.packet4.key 1, 1, fun _ => blankSession, []⟩, [], 0, [], []⟩

def timedOut : Line ℕ :=
  ⟨⟨⟨[], []⟩, 1, fun _ => blankSession, []⟩, [], 0, [], []⟩

def oneOfTwo (lcore : UInt8) : Setting := ⟨lcore, 2, fun _ => 1, fun _ => 1⟩

def quiet : Outside :=
  ⟨addressless, blankStack, ⟨fun _ => false, fun _ => false, fun _ => false⟩⟩

theorem tcpFrame_handed (portid : UInt8) : ∃ st₁,
    mainFrame (oneOfTwo 0) portid true 1 ownedElsewhere ⟨0, tcpFrame, quiet⟩ = some st₁ ∧
      st₁.log = ownedElsewhere.log ++ [⟨0, tcpFrame.tag portid 1, .threadRing 1 0⟩] :=
  ⟨_, mainFrame_hands_over (by decide +kernel) (by decide +kernel) (by decide +kernel)
    (by decide +kernel) rfl, rfl⟩

theorem carried_timedOut_iff (portid : UInt8) :
    (tcpFrame.tag portid 0).carried 1 timedOut quiet ↔ portid = 0 := by
  have hclass : (tcpFrame.tag portid 0).classify = .ipv4 := by
    change tcpFrame.classify = .ipv4
    decide +kernel
  have hget : sessionGet timedOut.table timedOut.shared.heap (tcpFrame.tag portid 0).packet4.inputKey =
      none := by
    change sessionGet timedOut.table timedOut.shared.heap tcpFrame.packet4.inputKey = none
    decide +kernel
  have hsearch : filterSearch quiet.sys (tcpFrame.tag portid 0).packet4 = some none := by
    change filterSearch quiet.sys tcpFrame.packet4 = some none
    decide +kernel
  simp only [Mbuf.carried, hclass, Line.indifferent, hget, hsearch]
  rfl

theorem port_zero_survives : ∃ st₁,
    mainFrame (oneOfTwo 0) 0 true 1 ownedElsewhere ⟨0, tcpFrame, quiet⟩ = some st₁ ∧
      st₁.log = ownedElsewhere.log ++ [⟨0, tcpFrame.tag 0 1, .threadRing 1 0⟩] ∧
      EndsAlike (oneOfTwo 1) 0 1 1 timedOut 0 tcpFrame (tcpFrame.tag 0 1) quiet := by
  obtain ⟨st₁, hs, hlog⟩ := tcpFrame_handed 0
  exact ⟨st₁, hs, hlog,
    (handed_over_alike_iff hs hlog List.nodup_nil 1 quiet).mpr ((carried_timedOut_iff 0).mpr rfl)⟩

theorem port_one_is_lost : ∃ st₁ m',
    mainFrame (oneOfTwo 0) 1 true 1 ownedElsewhere ⟨0, tcpFrame, quiet⟩ = some st₁ ∧
      st₁.log = ownedElsewhere.log ++ [⟨0, m', .threadRing 1 0⟩] ∧
      ¬ EndsAlike (oneOfTwo 1) 1 1 1 timedOut 0 tcpFrame m' quiet := by
  obtain ⟨st₁, hs, hlog⟩ := tcpFrame_handed 1
  refine ⟨st₁, _, hs, hlog, fun halike => ?_⟩
  have hclass : tcpFrame.classify = .ipv4 := by decide +kernel
  have hcarried := (dequeued_agree_iff (.inl hclass) List.nodup_nil 1 1 1 quiet).mp halike
  exact absurd ((carried_timedOut_iff 1).mp hcarried) (by decide)

end Aware.Frames
