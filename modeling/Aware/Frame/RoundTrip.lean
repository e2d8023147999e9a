import Aware.Filter.Search
import Aware.Frame.Input
import Aware.Service.Handover
import Aware.Service.Idle
import Aware.Service.Lookup
import Aware.Service.Target

/-!
# There and back

A frame of a client is sent on with the ends of the upstream session, and the answer is sent back
with the ends of the frame reversed. The answer finds its session because a translated session gets
a local end that no filter is on, with a key that the port table does not have.
-/
namespace Aware.Frames
open Aware.Filter Aware.Memory Aware.OnesSum Aware.Service Aware.Sessions

@[ext] structure Ends where
  src : BitVec 32
  sport : UInt16
  dst : BitVec 32
  dport : UInt16
deriving DecidableEq, Repr

def Ends.reverse (e : Ends) : Ends := ⟨e.dst, e.dport, e.src, e.sport⟩

def Mbuf.ends (m : Mbuf) : Ends :=
  ⟨m.packet4.srcAddr.ipv4, m.packet4.srcPort, m.packet4.dstAddr.ipv4, m.packet4.dstPort⟩

structure Mbuf.IsTcp (m : Mbuf) : Prop where
  proto : m.nextProtoId = ipprotoTcp
  ihl : 20 ≤ m.ihl

section Ends
variable {ι : Type} {s up : Session ι} {m : Mbuf} {hdr off n : ℕ}

def sessionEnds (s : Session ι) : Ends :=
  ⟨s.localAddr.ipv4, s.localPort, s.remoteAddr.ipv4, s.remotePort⟩

theorem field_alProcess (h : s.ftype ≠ fltLlb) (hin : up.inType = false)
    (hoff : off + n ≤ 24 ∨ 26 ≤ off) (hsum : off + n ≤ hdr + 16) :
    field (alProcess s up m hdr).mem off n =
      field (setAddrs4 up (setPorts up hdr (setHardware s up m))).mem off n := by
  refine congrArg leNat (slice_congr fun i hlo hhi => ?_)
  rw [alProcess_mem h (by omega), setTransportChksum_mem (by omega), setEnds,
    write_mem_outside (by rw [List.length_cons, List.length_singleton]; omega), hin,
    if_neg Bool.false_ne_true]

theorem alProcess_nextptr4 (h : s.ftype ≠ fltLlb) (hhdr : 34 ≤ hdr) :
    (alProcess s up m hdr).nextptr4 = m.nextptr4 := by
  have hbyte : (alProcess s up m hdr).mem 14 = m.mem 14 := by
    rw [alProcess_mem h (by omega), setTransportChksum_mem (by omega)]
    refine setEnds_mem (by omega) (by omega) ?_ (fun _ => by omega) fun _ => by omega
    rw [AtChksum]
    omega
  rw [Mbuf.nextptr4, Mbuf.ihl, hbyte]
  rfl

theorem setAddrs4_src : BitVec.ofNat 32 (field (setAddrs4 up m).mem 26 4) = up.localAddr.ipv4 := by
  have hlen : (leBytes 4 up.remoteAddr.ipv4.toNat).length = 4 := length_leBytes _ _
  change BitVec.ofNat 32 (field (Memory.write (Memory.write m.mem 26 _) 30 _) 26 4) = _
  rw [field_write_outside (by omega)]
  exact ofNat_field_write _ _ _

theorem setAddrs4_dst : BitVec.ofNat 32 (field (setAddrs4 up m).mem 30 4) = up.remoteAddr.ipv4 :=
  ofNat_field_write _ _ _

theorem field_setAddrs4 (h : 34 ≤ off) : field (setAddrs4 up m).mem off n = field m.mem off n :=
  congrArg leNat (slice_congr fun i hlo _ => setAddrs4_mem (by omega))

theorem setPorts_sport : field16 (setPorts up hdr m).mem hdr = up.localPort := by
  have hlen : (leBytes 2 up.remotePort.toNat).length = 2 := length_leBytes _ _
  change field16 (Memory.write (Memory.write m.mem hdr _) (hdr + 2) _) hdr = _
  rw [field16, field_write_outside (by omega)]
  exact field16_write _ _ _

theorem setPorts_dport : field16 (setPorts up hdr m).mem (hdr + 2) = up.remotePort :=
  field16_write _ _ _

theorem alProcess_ends (h : s.ftype ≠ fltLlb) (hin : up.inType = false) (hihl : 20 ≤ m.ihl) :
    (alProcess s up m m.nextptr4).ends = sessionEnds up := by
  have hhdr : 34 ≤ m.nextptr4 := by
    rw [Mbuf.nextptr4]
    omega
  have hptr : (alProcess s up m m.nextptr4).nextptr4 = m.nextptr4 := alProcess_nextptr4 h hhdr
  apply Ends.ext
  · change BitVec.ofNat 32 (field (alProcess s up m m.nextptr4).mem 26 4) = _
    rw [field_alProcess h hin (by omega) (by omega), setAddrs4_src]
    rfl
  · change field16 (alProcess s up m m.nextptr4).mem (alProcess s up m m.nextptr4).nextptr4 = _
    rw [hptr, field16, field_alProcess h hin (by omega) (by omega), field_setAddrs4 hhdr]
    exact setPorts_sport
  · change BitVec.ofNat 32 (field (alProcess s up m m.nextptr4).mem 30 4) = _
    rw [field_alProcess h hin (by omega) (by omega), setAddrs4_dst]
    rfl
  · change field16 (alProcess s up m m.nextptr4).mem ((alProcess s up m m.nextptr4).nextptr4 + 2) = _
    rw [hptr, field16, field_alProcess h hin (by omega) (by omega), field_setAddrs4 (by omega)]
    exact setPorts_dport

end Ends

structure Call where
  out : Outside
  fromNic : Bool
  type : UInt8
  buf : ℕ × Mbuf

def OnlyTrans (fl : Filters) : Prop :=
  ∀ dst port proto f, alFilterSearch fl .inet dst port proto = some (some f) → f.ftype = fltSimpleTrans

theorem OnlyTrans.ftype {fl : Filters} (h : OnlyTrans fl) {sys : System} {pkt : Packet} {f : AlFargs}
    (hfl : sys.filters = fl) (hfam : pkt.family = .inet) (hf : filterSearch sys pkt = some (some f)) :
    f.ftype = fltSimpleTrans := by
  rw [filterSearch, hfam, hfl] at hf
  exact h _ _ _ f hf

theorem onlyTrans_of_live {st : State} (h : Sane st)
    (hlive : ∀ p, ∀ c ∈ st.2 p, c.filterType = fltSimpleTrans) : OnlyTrans st.1 := by
  obtain ⟨idx, hidx⟩ := h
  intro dst port proto f hf
  obtain ⟨p, c, hc, rfl⟩ := hidx.found hf
  exact hlive p c hc

def Facing {ι : Type} (fl : Filters) (s : Session ι) : Prop :=
  ∃ f, alFilterSearch fl .inet (netOrder s.localAddr.ipv4) s.localPort s.proto = some (some f)

section Bound
variable {ι : Type} {sys : System} {thread : UInt8} {ports : Ports} {portStart : UInt16} {s : Session ι}

theorem facing_iff : Facing sys.filters s ↔ filterHits sys s.localAddr s.localPort s.proto = true := by
  unfold Facing filterHits
  split
  · rename_i f hf
    exact ⟨fun _ => rfl, fun _ => ⟨f, hf⟩⟩
  · rename_i hnone
    exact ⟨fun ⟨f, hf⟩ => absurd hf (hnone f), fun h => absurd h Bool.false_ne_true⟩

theorem alocate_not_facing
    (h : (alAlocateNewPortWithSession sys thread ports portStart s).entered = true) :
    ¬ Facing sys.filters (alAlocateNewPortWithSession sys thread ports portStart s).session := by
  simp only [alAlocateNewPortWithSession] at h ⊢
  split at h
  · cases h
  · rename_i start lport halloc
    unfold alAlocateNewPort at halloc
    have htaken := not_taken_of_tryPorts (congrArg Prod.snd halloc)
    rw [Bool.or_eq_false_iff] at htaken
    rw [facing_iff]
    exact Bool.eq_false_iff.mp htaken.1

theorem simpleTrans_not_facing {f : Family} {tgt : Target}
    (h : (simpleTrans sys thread ports portStart s f tgt).entered = true) :
    ¬ Facing sys.filters (simpleTrans sys thread ports portStart s f tgt).session := by
  simp only [simpleTrans] at h ⊢
  split at h
  · cases h
  · exact alocate_not_facing h

theorem simpleTrans_kind {f : Family} {tgt : Target} :
    (simpleTrans sys thread ports portStart s f tgt).session.inType = s.inType ∧
      (simpleTrans sys thread ports portStart s f tgt).session.proto = s.proto := by
  simp only [simpleTrans, alAlocateNewPortWithSession]
  split
  · exact ⟨rfl, rfl⟩
  · split <;> exact ⟨rfl, rfl⟩

end Bound

section Run
variable {ι : Type} [DecidableEq ι]

def input (cfg : Setting) (st : Line ι) (a : Call) : Option (Line ι) :=
  alIpv4Input cfg a.out a.fromNic a.type st a.buf

def Creates (cfg : Setting) (fl : Filters) (st : Line ι) (a : Call) : Prop :=
  a.out.sys.filters = fl ∧
    (sessionGet st.table st.shared.heap a.buf.2.packet4.inputKey = none →
      st.owner a.fromNic a.buf.2.packet4 = none →
      ∀ f, filterSearch a.out.sys a.buf.2.packet4 = some (some f) →
        ∃ pair sh' table', alService a.out.sys a.out.stk cfg.lcore f a.buf.2.packet4 st.shared st.table =
          some (some pair, sh', table'))

def Line.start (shared : Shared ι) : Line ι :=
  ⟨shared, List.replicate sessionBuckets [], 0, [], []⟩

def Line.Reached (cfg : Setting) (fl : Filters) (st : Line ι) : Prop :=
  ∃ (shared : Shared ι) (calls : List Call), shared.pool.Nodup ∧
    Runs.Guarded (input cfg) (Creates cfg fl) (Line.start shared) calls ∧
    calls.foldlM (input cfg) (Line.start shared) = some st

/-- The frames of session `c` go out with the ends of its partner, and an answer is found to be
of the partner and goes out with the ends reversed. -/
def RoundTrip (st : Line ι) (c : ι) : Prop :=
  ∀ m : Mbuf, m.IsTcp → m.packet4.key = (st.shared.heap c).key →
    let client := st.shared.heap c
    let upstream := st.shared.heap client.up
    sessionGet st.table st.shared.heap m.packet4.inputKey = some c ∧
      (alProcess client upstream m m.nextptr4).ends = sessionEnds upstream ∧
      ∀ r : Mbuf, r.IsTcp → r.ends = (alProcess client upstream m m.nextptr4).ends.reverse →
        sessionGet st.table st.shared.heap r.packet4.inputKey = some client.up ∧
          (alProcess upstream (st.shared.heap upstream.up) r r.nextptr4).ends = m.ends.reverse

omit [DecidableEq ι] in
theorem handOver_state (st : Line ι) (cfg : Setting) (fate : Fate) (bufs : List (ℕ × Mbuf)) :
    (st.handOver cfg fate bufs).shared = st.shared ∧ (st.handOver cfg fate bufs).table = st.table :=
  ⟨rfl, rfl⟩

omit [DecidableEq ι] in
theorem sendToSwitch_state (cfg : Setting) (portid : UInt8) (bufs : List (ℕ × Mbuf)) (toKni : Bool)
    (st : Line ι) :
    (sendToSwitch cfg portid bufs toKni st).shared = st.shared ∧
      (sendToSwitch cfg portid bufs toKni st).table = st.table := by
  unfold sendToSwitch kniBurstWrite
  split
  · split <;> exact handOver_state ..
  · exact handOver_state ..

/-- What a call can do to the tables: nothing, a session in use kept alive, or a new pair. -/
inductive Effect (cfg : Setting) (st : Line ι) (a : Call) : Line ι → Prop
  | same {st' : Line ι} : st'.shared = st.shared → st'.table = st.table → Effect cfg st a st'
  | touched {st' : Line ι} (x : ι) :
      st'.shared = { st.shared with heap := touch st.shared.heap x } → st'.table = st.table →
      Effect cfg st a st'
  | paired {st' : Line ι} {f : AlFargs} {c u : ι} {sh : Shared ι} {table : List (List ι)} :
      sessionGet st.table st.shared.heap a.buf.2.packet4.inputKey = none →
      filterSearch a.out.sys a.buf.2.packet4 = some (some f) →
      alService a.out.sys a.out.stk cfg.lcore f a.buf.2.packet4 st.shared st.table =
        some (some (c, u), sh, table) →
      st'.shared = { sh with heap := touch sh.heap c } → st'.table = table → Effect cfg st a st'

theorem process_state (st : Line ι) (cfg : Setting) (x : ι) (buf : ℕ × Mbuf) (hdr : ℕ) :
    (st.process cfg x buf hdr).shared = { st.shared with heap := touch st.shared.heap x } ∧
      (st.process cfg x buf hdr).table = st.table :=
  sendToSwitch_state ..

theorem input_service {cfg : Setting} {st : Line ι} {a : Call} {f : AlFargs} {c u : ι} {sh : Shared ι}
    {table : List (List ι)}
    (hmiss : sessionGet st.table st.shared.heap a.buf.2.packet4.inputKey = none)
    (howner : st.owner a.fromNic a.buf.2.packet4 = none)
    (hf : filterSearch a.out.sys a.buf.2.packet4 = some (some f)) (hgslb : f.ftype ≠ fltGslb)
    (hservice : alService a.out.sys a.out.stk cfg.lcore f a.buf.2.packet4 st.shared st.table =
      some (some (c, u), sh, table)) :
    input cfg st a =
      some ({ st with shared := sh, table }.process cfg c a.buf a.buf.2.nextptr4) := by
  simp only [input, alIpv4Input, hmiss, Line.miss, howner, hf, Line.service, hgslb, if_false, hservice]

theorem input_effect {cfg : Setting} {fl : Filters} {st st' : Line ι} {a : Call} (hfl : OnlyTrans fl)
    (hcreates : Creates cfg fl st a) (h : input cfg st a = some st') : Effect cfg st a st' := by
  simp only [input, alIpv4Input] at h
  split at h
  · rename_i x hx
    cases h
    exact .touched x (process_state ..).1 (process_state ..).2
  · rename_i hmiss
    simp only [Line.miss] at h
    split at h
    · split at h
      · cases h
        exact .same (handOver_state ..).1 (handOver_state ..).2
      · cases h
    · rename_i howner
      split at h
      · cases h
      · rename_i f hf
        obtain ⟨⟨c, u⟩, sh, table, hservice⟩ := hcreates.2 hmiss howner f hf
        have htype := hfl.ftype hcreates.1 rfl hf
        have hgslb : f.ftype ≠ fltGslb := by
          rw [htype]
          decide
        rw [Line.service, if_neg hgslb, hservice] at h
        cases h
        exact .paired hmiss hf hservice (process_state ..).1 (process_state ..).2
      · cases h
        exact .same (sendToSwitch_state ..).1 (sendToSwitch_state ..).2

end Run

section Paths
variable {ι : Type} {fl : Filters} {st st' : Line ι}

/-- A client session has a filter on its local end. An upstream session does not, and is in the
port table. -/
structure OnPath (fl : Filters) (ports : Ports) (s : Session ι) : Prop where
  family : s.inType = false
  ftype : s.ftype = fltSimpleTrans
  client : s.isUps = false → Facing fl s
  upstream : s.isUps = true → ¬ Facing fl s ∧ ports.Has s.key

structure Paths (fl : Filters) (sh : Shared ι) (table : List (List ι)) : Prop where
  objects : (table.flatten ++ sh.pool).Nodup
  linked : Linked table sh.heap
  session : ∀ x ∈ table.flatten, OnPath fl sh.ports (sh.heap x)
  proto : ∀ x ∈ table.flatten, (sh.heap (sh.heap x).up).proto = (sh.heap x).proto
  unique : ∀ x ∈ table.flatten, ∀ y ∈ table.flatten, (sh.heap x).key = (sh.heap y).key → x = y

theorem facing_of_key {s s' : Session ι} (hs : s.inType = false) (hs' : s'.inType = false)
    (hkey : s.key = s'.key) (h : Facing fl s) : Facing fl s' := by
  rw [key_v4 hs, key_v4 hs'] at hkey
  have htuple := Key.v4.inj hkey
  have hlip : s.localAddr.ipv4 = s'.localAddr.ipv4 := congrArg Tuple.lip htuple
  have hlport : s.localPort = s'.localPort := congrArg Tuple.lport htuple
  have hproto : s.proto = s'.proto := congrArg Tuple.proto htuple
  rw [Facing, hlip, hlport, hproto] at h
  exact h

theorem Paths.start (fl : Filters) {shared : Shared ι} (hpool : shared.pool.Nodup) :
    Paths fl shared (Line.start shared).table := by
  have hempty : (Line.start shared).table.flatten = [] := List.flatten_replicate_nil
  constructor
  case objects =>
      rw [hempty]
      exact hpool
  case linked => exact linked_replicate _
  all_goals
    intro x hx
    rw [hempty] at hx
    cases hx

theorem Paths.onlyStout {sh : Shared ι} {table : List (List ι)} (h : Paths fl sh table)
    {heap : ι → Session ι} (hstout : OnlyStout sh.heap heap) : Paths fl { sh with heap } table := by
  have hup : ∀ x, (heap x).up = (sh.heap x).up ∧ (heap x).proto = (sh.heap x).proto := by
    intro x
    obtain ⟨n, hn⟩ := hstout x
    rw [hn]
    exact ⟨rfl, rfl⟩
  have hkey : ∀ x, (heap x).key = (sh.heap x).key := by
    intro x
    obtain ⟨n, hn⟩ := hstout x
    rw [hn]
    rfl
  constructor
  case objects => exact h.objects
  case linked => exact h.linked.onlyStout hstout
  case session =>
      intro x hx
      have hsession := h.session x hx
      obtain ⟨n, hn⟩ := hstout x
      change OnPath fl sh.ports (heap x)
      rw [hn]
      exact ⟨hsession.family, hsession.ftype, hsession.client, hsession.upstream⟩
  case proto =>
      intro x hx
      change (heap (heap x).up).proto = (heap x).proto
      rw [(hup x).1, (hup _).2, (hup _).2]
      exact h.proto x hx
  case unique =>
      intro x hx y hy heq
      apply h.unique x hx y hy
      rw [← hkey, ← hkey]
      exact heq

theorem OnPath.mono {ports ports' : Ports} {s : Session ι} (h : OnPath fl ports s)
    (hports : ports.Has s.key → ports'.Has s.key) : OnPath fl ports' s where
  family := h.family
  ftype := h.ftype
  client := h.client
  upstream hups := ⟨(h.upstream hups).1, hports (h.upstream hups).2⟩

theorem OnPath.key_ne {ports : Ports} {s s' : Session ι} (h : OnPath fl ports s) (hin : s'.inType = false)
    (hfacing : ¬ Facing fl s') (hfresh : ¬ ports.Has s'.key) : s.key ≠ s'.key := by
  intro heq
  cases hside : s.isUps with
  | false => exact hfacing (facing_of_key h.family hin heq (h.client hside))
  | true => exact hfresh (heq ▸ (h.upstream hside).2)

variable {sys : System} {stk : Stack} {thread : UInt8} {f : AlFargs} {pkt : Packet}
  {c u : ι} {sh sh' : Shared ι} {table table' : List (List ι)}

section Pair
variable (he : Established sys stk thread f pkt sh table c u sh' table')
include he

theorem Established.client_end (hfam : pkt.family = .inet) (hhit : filterSearch sys pkt = some (some f)) :
    (sh'.heap c).inType = false ∧ (sh'.heap c).proto = pkt.proto ∧ Facing sys.filters (sh'.heap c) := by
  obtain ⟨hanswers, hin⟩ := (key_eq_iff _ _).mp he.client.1
  rw [Packet.inType, hfam] at hin
  rw [Packet.key, hfam] at hanswers
  have htuple : (sh'.heap c).tuple4 = _ := eq_of_beq hanswers
  have hlip : (sh'.heap c).localAddr.ipv4 = pkt.dstAddr.ipv4 := congrArg Tuple.lip htuple
  have hlport : (sh'.heap c).localPort = pkt.dstPort := congrArg Tuple.lport htuple
  have hproto : (sh'.heap c).proto = pkt.proto := congrArg Tuple.proto htuple
  refine ⟨hin, hproto, f, ?_⟩
  rw [filterSearch, hfam] at hhit
  rw [hlip, hlport, hproto]
  exact hhit

theorem Established.upstream_end (hf : f.ftype = fltSimpleTrans) (hfam : pkt.family = .inet) :
    (sh'.heap u).inType = false ∧ (sh'.heap u).proto = pkt.proto ∧ ¬ Facing sys.filters (sh'.heap u) ∧
      ¬ sh.ports.Has (sh'.heap u).key ∧ sh'.ports = sh.ports.insert (sh'.heap u).key thread := by
  obtain ⟨margs, nexthop, oif, s, -, -, htype, hentered, hports, hsame⟩ := he.bound
  have hs := htype.trans hf
  have hfits := bindRemote_fits sys thread sh.ports sh.portStart s pkt ⟨margs, nexthop, oif⟩
  have hfresh := hfits.fresh hentered hs
  have hentry := hfits.entry hentered
  rw [hports, ← hsame.key] at hentry
  rw [← hsame.key] at hfresh
  simp only [bindRemote, hs, if_true] at hentered hsame
  refine ⟨?_, ?_, ?_, hfresh, hentry⟩
  · rw [hsame.inType, simpleTrans_kind.1]
    change pkt.inType = false
    rw [Packet.inType, hfam]
    rfl
  · rw [hsame.proto, simpleTrans_kind.2]
  · have hnot := simpleTrans_not_facing hentered
    rw [Facing, ← hsame.localAddr, ← hsame.localPort, ← hsame.proto] at hnot
    exact hnot

variable (hsize : table.length = sessionBuckets)
include hsize

theorem Established.mem_iff {x : ι} :
    x ∈ table'.flatten ↔ x = u ∨ x = c ∨ x ∈ table.flatten := by
  rw [he.table, (flatten_addPair hsize _ c u).mem_iff, List.mem_cons, List.mem_cons]

theorem Established.objects (h : (table.flatten ++ sh.pool).Nodup) :
    (table'.flatten ++ sh'.pool).Nodup := by
  have hpool : (table.flatten ++ sh.pool).Perm (u :: c :: table.flatten ++ sh'.pool) := by
    rw [he.pool]
    exact (List.perm_middle.trans (List.perm_middle.cons c)).trans (.swap _ _ _)
  rw [he.table]
  exact (((flatten_addPair hsize _ c u).append_right _).trans hpool.symm).nodup_iff.mpr h

theorem Established.added (h : (table.flatten ++ sh.pool).Nodup) :
    (u :: c :: table.flatten).Nodup ∧ ∀ x ∈ table.flatten, sh'.heap x = sh.heap x := by
  have hnodup : (u :: c :: table.flatten).Nodup := (flatten_addPair hsize sh'.heap c u).nodup_iff.mp
    (he.table ▸ (List.nodup_append.mp (Established.objects he hsize h)).1)
  refine ⟨hnodup, fun x hx => ?_⟩
  rw [List.nodup_cons, List.nodup_cons] at hnodup
  apply he.others
  · rintro rfl
    exact hnodup.2.1 hx
  · rintro rfl
    exact hnodup.1 (List.mem_cons_of_mem _ hx)

theorem Established.unique
    (hold : ∀ x ∈ table.flatten, ∀ y ∈ table.flatten, (sh'.heap x).key = (sh'.heap y).key → x = y)
    (hclient : ∀ x ∈ table.flatten, (sh'.heap x).key ≠ (sh'.heap c).key)
    (hupstream : ∀ x ∈ table.flatten, (sh'.heap x).key ≠ (sh'.heap u).key)
    (hsides : (sh'.heap c).key ≠ (sh'.heap u).key) :
    ∀ x ∈ table'.flatten, ∀ y ∈ table'.flatten, (sh'.heap x).key = (sh'.heap y).key → x = y := by
  intro x hx y hy heq
  rcases (Established.mem_iff he hsize).mp hx with rfl | rfl | hx <;>
    rcases (Established.mem_iff he hsize).mp hy with rfl | rfl | hy
  · rfl
  · exact absurd heq.symm hsides
  · exact absurd heq.symm (hupstream y hy)
  · exact absurd heq hsides
  · rfl
  · exact absurd heq.symm (hclient y hy)
  · exact absurd heq (hupstream x hx)
  · exact absurd heq (hclient x hx)
  · exact hold x hx y hy heq

end Pair

theorem Paths.pair (h : Paths fl sh table) (hfl : sys.filters = fl) (hfam : pkt.family = .inet)
    (hf : f.ftype = fltSimpleTrans) (hmiss : sessionGet table sh.heap pkt.inputKey = none)
    (hhit : filterSearch sys pkt = some (some f))
    (he : Established sys stk thread f pkt sh table c u sh' table') : Paths fl sh' table' := by
  obtain ⟨hckey, hcups, hcup, hctype⟩ := he.client
  obtain ⟨huups, huup, hutype⟩ := he.upstream
  obtain ⟨hcin, hcproto, hcfacing⟩ := Established.client_end he hfam hhit
  obtain ⟨huin, huproto, hufacing, hfresh, hports⟩ := Established.upstream_end he hf hfam
  rw [hfl] at hcfacing hufacing
  have hmem := fun x => Established.mem_iff he h.linked.size (x := x)
  obtain ⟨hnodup, hold⟩ := Established.added he h.linked.size h.objects
  have hclient : OnPath fl sh'.ports (sh'.heap c) :=
    ⟨hcin, hctype.trans hf, fun _ => hcfacing, fun hside => absurd (hcups.symm.trans hside) Bool.false_ne_true⟩
  have hupstream : OnPath fl sh'.ports (sh'.heap u) := by
    refine ⟨huin, hutype.trans hf, fun hside => absurd (hside.symm.trans huups) Bool.false_ne_true, fun _ => ?_⟩
    rw [hports]
    exact ⟨hufacing, Ports.has_insert_self⟩
  constructor
  case objects => exact Established.objects he h.linked.size h.objects
  case linked =>
      have hlinked : Linked table sh'.heap := by
        refine h.linked.congr fun x hx => ?_
        rw [hold x hx]
        exact ⟨rfl, rfl⟩
      rw [he.table]
      exact hlinked.addPair hnodup hcup huup
  case session =>
      intro x hx
      rcases (hmem x).mp hx with rfl | rfl | hx
      · exact hupstream
      · exact hclient
      · rw [hold x hx, hports]
        exact (h.session x hx).mono Ports.Has.insert
  case proto =>
      intro x hx
      rcases (hmem x).mp hx with rfl | rfl | hx
      · rw [huup, hcproto, huproto]
      · rw [hcup, hcproto, huproto]
      · rw [hold x hx, hold _ (h.linked.paired.mem x hx)]
        exact h.proto x hx
  case unique =>
      refine Established.unique he h.linked.size ?_ ?_ ?_ ?_
      · intro x hx y hy heq
        rw [hold x hx, hold y hy] at heq
        exact h.unique x hx y hy heq
      · intro x hx heq
        have hinput : pkt.inputKey = pkt.key := by rw [Packet.inputKey, hfam]
        rw [hinput, ← hckey, ← heq, hold x hx] at hmiss
        exact h.linked.sessionGet_isSome hx hmiss
      · intro x hx
        rw [hold x hx]
        exact (h.session x hx).key_ne huin hufacing hfresh
      · exact fun heq => hufacing (facing_of_key hcin huin heq hcfacing)

variable [DecidableEq ι] {cfg : Setting}

theorem Paths.input (h : Paths fl st.shared st.table) (hfl : OnlyTrans fl) {a : Call}
    (hcreates : Creates cfg fl st a) (hst : input cfg st a = some st') :
    Paths fl st'.shared st'.table := by
  cases input_effect hfl hcreates hst with
  | same hshared htable =>
    rw [hshared, htable]
    exact h
  | touched x hshared htable =>
    rw [hshared, htable]
    exact h.onlyStout (onlyStout_touch _ x)
  | @paired f c u sh table hmiss hhit hservice hshared htable =>
    have hpool := (List.nodup_append.mp h.objects).2.1
    have htype := hfl.ftype hcreates.1 rfl hhit
    have hpaths := h.pair hcreates.1 rfl htype hmiss hhit (alService_established hpool hservice)
    rw [hshared, htable]
    exact hpaths.onlyStout (onlyStout_touch _ c)

theorem Line.Reached.paths (h : st.Reached cfg fl) (hfl : OnlyTrans fl) :
    Paths fl st.shared st.table := by
  obtain ⟨shared, calls, hpool, hguarded, hrun⟩ := h
  exact Runs.Guarded.foldlM_invariant (P := fun st : Line ι => Paths fl st.shared st.table)
    (fun st a st' h hcreates hst => h.input hfl hcreates hst) (.start fl hpool) hguarded hrun

theorem Line.Reached.single {shared : Shared ι} (hpool : shared.pool.Nodup) {a : Call}
    (hcreates : Creates cfg fl (Line.start shared) a)
    (hst : Frames.input cfg (Line.start shared) a = some st) : st.Reached cfg fl := by
  refine ⟨shared, [a], hpool, ⟨hcreates, fun _ _ => trivial⟩, ?_⟩
  rw [List.foldlM_cons, hst]
  rfl

omit [DecidableEq ι] in
theorem Paths.found (h : Paths fl sh table) {x : ι} (hx : x ∈ table.flatten) {m : Mbuf}
    (hm : m.packet4.key = (sh.heap x).key) : sessionGet table sh.heap m.packet4.inputKey = some x := by
  obtain ⟨y, hy⟩ := Option.ne_none_iff_exists'.mp (h.linked.sessionGet_isSome hx)
  obtain ⟨hmem, hanswers⟩ := sessionGet_spec hy
  have hkey : (sh.heap y).key = (sh.heap x).key := by
    rw [key_v4 (h.session x hx).family] at hanswers ⊢
    rw [key_v4 (h.session y hmem).family]
    exact congrArg Key.v4 (eq_of_beq hanswers)
  have hinput : m.packet4.inputKey = m.packet4.key := rfl
  rw [hinput, hm, hy, h.unique y hmem x hx hkey]

omit [DecidableEq ι] in
theorem key_eq_iff_ends {m : Mbuf} {s : Session ι} (hin : s.inType = false) :
    m.packet4.key = s.key ↔ m.ends.reverse = sessionEnds s ∧ m.nextProtoId = s.proto := by
  rw [key_v4 hin]
  change Key.v4 ⟨m.ends.src, m.ends.dst, m.ends.sport, m.ends.dport, m.nextProtoId⟩ = .v4 s.tuple4 ↔ _
  simp only [Session.tuple4, Key.v4.injEq, Tuple.mk.injEq, Ends.reverse, sessionEnds, Ends.mk.injEq]
  tauto

/-- In every state that calls lead to without a failed creation, over filters that translate,
every pair makes a round trip, from either side. -/
theorem round_trip (h : st.Reached cfg fl) (hfl : OnlyTrans fl) {c : ι} (hc : c ∈ st.table.flatten) :
    RoundTrip st c := by
  have hpaths := h.paths hfl
  have hu := hpaths.linked.paired.mem c hc
  have hback := hpaths.linked.paired.back c hc
  have hllb : fltSimpleTrans ≠ fltLlb := by decide
  intro m hm hkey
  have hout := alProcess_ends ((hpaths.session c hc).ftype ▸ hllb) (hpaths.session _ hu).family hm.ihl
  refine ⟨?_, hout, fun r hr hends => ⟨?_, ?_⟩⟩
  · exact hpaths.found hc hkey
  · have hanswer : r.packet4.key = (st.shared.heap (st.shared.heap c).up).key := by
      refine (key_eq_iff_ends (hpaths.session _ hu).family).mpr ⟨?_, ?_⟩
      · rw [hends, hout]
        rfl
      · rw [hr.proto, hpaths.proto c hc, ← ((key_eq_iff_ends (hpaths.session c hc).family).mp hkey).2, hm.proto]
    exact hpaths.found hu hanswer
  · rw [hback, ((key_eq_iff_ends (hpaths.session c hc).family).mp hkey).1]
    exact alProcess_ends ((hpaths.session _ hu).ftype ▸ hllb) (hpaths.session c hc).family hr.ihl

end Paths

def transOp : Op :=
  .insert ⟨.inet, 0x0a000002, ⟨32, by decide⟩, ⟨1, 1, fltSimpleTrans, 6, 80⟩⟩ ampleEnv

def transState : State :=
  (track Filter.start transOp).getD Filter.start

theorem onlyTrans_transState : OnlyTrans transState.1 := by
  have hguard : Guard Filter.start transOp := by decide +kernel
  obtain ⟨st, hst, hsane⟩ := sane_start.track hguard
  have heq : transState = st := by rw [transState, hst, Option.getD_some]
  have hlive : (transState.2 transOp.target).all (fun c => c.filterType == fltSimpleTrans) = true := by
    decide +kernel
  have hrun : [transOp].foldlM track Filter.start = some st := by
    rw [List.foldlM_cons, hst]
    rfl
  rw [heq] at hlive ⊢
  refine onlyTrans_of_live hsane fun p c hc => ?_
  rcases eq_or_ne p transOp.target with rfl | hp
  · exact eq_of_beq (List.all_eq_true.mp hlive c hc)
  · have htarget : ∀ op ∈ [transOp], op.target = transOp.target := by simp
    rw [bare_of_one_target htarget hrun hp] at hc
    cases hc

def transCall : Call :=
  ⟨⟨{ oneAddress with filters := transState.1 }, blankStack, ⟨fun _ => false, fun _ => false, fun _ => false⟩⟩,
    false, 0, (0, tcpFrame)⟩

def oneWorker : Setting :=
  ⟨0, 1, fun _ => 1, fun _ => 1⟩

theorem sessionGet_replicate {ι : Type} (n : ℕ) (heap : ι → Session ι) (k : Key) :
    sessionGet (List.replicate n []) heap k = none := by
  cases hget : sessionGet (List.replicate n []) heap k with
  | none => rfl
  | some x =>
    have hmem := (sessionGet_spec hget).1
    rw [List.flatten_replicate_nil] at hmem
    cases hmem

theorem first_frame_returns :
    ∃ (st : Line ℕ) (c : ℕ), st.Reached oneWorker transState.1 ∧ OnlyTrans transState.1 ∧
      c ∈ st.table.flatten ∧ (st.shared.heap c).isUps = false ∧ tcpFrame.IsTcp ∧
      tcpFrame.packet4.key = (st.shared.heap c).key ∧ RoundTrip st c := by
  have hfilter : filterSearch transCall.out.sys tcpFrame.packet4 = some (some ⟨1, 1, fltSimpleTrans⟩) := by
    decide +kernel
  have hservice : (alService transCall.out.sys blankStack 0 ⟨1, 1, fltSimpleTrans⟩ tcpFrame.packet4
      twoObjects.shared (Line.start twoObjects.shared).table).any (fun r => r.1 == some (1, 2)) = true := by
    decide +kernel
  obtain ⟨⟨pair, sh, table⟩, hservice, hpair⟩ := (Option.any_eq_true _ _).mp hservice
  cases eq_of_beq hpair
  have hmiss : sessionGet (Line.start twoObjects.shared).table twoObjects.shared.heap
      tcpFrame.packet4.inputKey = none := sessionGet_replicate ..
  have hinput : input oneWorker (Line.start twoObjects.shared) transCall = some _ :=
    input_service hmiss rfl hfilter (by decide) hservice
  have hcreates : Creates oneWorker transState.1 (Line.start twoObjects.shared) transCall := by
    refine ⟨rfl, fun _ _ f hf => ?_⟩
    cases hfilter.symm.trans hf
    exact ⟨_, _, _, hservice⟩
  have hreached := Line.Reached.single (by decide) hcreates hinput
  have hestablished := alService_established (by decide) hservice
  have hmem : 1 ∈ table.flatten :=
    (Established.mem_iff hestablished List.length_replicate).mpr (.inr (.inl rfl))
  obtain ⟨n, hn⟩ := onlyStout_touch sh.heap 1 1
  refine ⟨_, 1, hreached, onlyTrans_transState, hmem, ?_, ⟨by decide, by decide⟩, ?_,
    round_trip hreached onlyTrans_transState hmem⟩
  · change (touch sh.heap 1 1).isUps = false
    rw [hn]
    exact hestablished.client.2.1
  · change _ = (touch sh.heap 1 1).key
    rw [hn]
    exact hestablished.client.1.symm

end Aware.Frames
