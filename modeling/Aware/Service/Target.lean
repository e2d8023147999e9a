import Aware.Service.Alone

/-!
# Where a translated session goes

`session_init_remote` reads the address of the member as the family of the packet has it,
whatever family the member has.
-/
namespace Aware.Service
open Function Aware.Filter Aware.Member Aware.Sessions

def familyByte : Family → UInt8
  | .inet => afInet
  | .inet6 => afInet6

def chosen (sys : System) (stk : Stack) (f : AlFargs) : Option AlMember :=
  (alMemberLookup sys.groups f.fid f.gid stk.margs).bind fun l =>
    l.slot.bind fun j => (l.groups (alMakeKey f.fid f.gid)).bind fun mn => mn.chain.slots[j]?

def IsAddr (f : Family) (addr : AlAddr) (ip : Ipcs) : Prop :=
  match f with
  | .inet => ip.ipv4 = addr.naddr4
  | .inet6 => ip.ipv6 = addr.naddr6

/-- The session goes to the member, from an address of the egress port in the subnet of the
member. -/
structure Translated {ι : Type} (sys : System) (stk : Stack) (f : Family) (m : AlMember)
    (s : Session ι) : Prop where
  addr : IsAddr f m.addr s.remoteAddr
  port : s.remotePort = m.port
  family : m.addr.family = familyByte f
  egress : ∃ nexthop oif, routeTo sys stk.nexthop m.addr = some (nexthop, oif) ∧
    ∃ conf ∈ (sys.vports oif).ips f, s.localAddr = conf.ip ∧
      isSameSubnet f conf.ip s.remoteAddr conf.mask = true

section Member
variable {sys : System} {stk : Stack} {f : AlFargs} {margs : AlMargs}

theorem chooseMember_spec (h : chooseMember sys stk f = some (some margs)) :
    ∃ (m : AlMember) (addr : AlAddr), chosen sys stk f = some m ∧ margs.port = m.port ∧
      margs.addr = if m.addr.family = afInet then addr.assign4 m.addr else m.addr := by
  obtain ⟨l, hl, hslot⟩ := Option.map_eq_some_iff.mp h
  obtain ⟨j, hj, rfl⟩ := Option.map_eq_some_iff.mp hslot
  simp only [chosen, hl, Option.bind_some, hj]
  simp only [alMemberLookup] at hl
  split at hl
  · cases hl
    cases hj
  · split at hl
    · cases hl
    · split at hl
      · cases hl
      · cases hl
        cases hj
      · split at hl
        · cases hl
        · rename_i m hm
          cases hl
          cases hj
          refine ⟨m, _, ?_, rfl, rfl⟩
          exact (congrArg (Option.bind · _) (Groups.set_self _ _ _)).trans hm

theorem routeTo_margs (nexthop : Ipcs) {addr a : AlAddr} {b : AlAddr}
    (h : b = if a.family = afInet then addr.assign4 a else a) :
    routeTo sys nexthop b = routeTo sys nexthop a := by
  split at h
  · rename_i hfam
    have hb : b.family = afInet := by rw [h]; exact hfam
    rw [routeTo, routeTo, if_pos hb, if_pos hfam, h]
    rfl
  · rw [h]

theorem isAddr_assign {fam : Family} {addr a b : AlAddr} (hfam : a.family = familyByte fam)
    (h : b = if a.family = afInet then addr.assign4 a else a) (ip : Ipcs) :
    IsAddr fam a (ip.assign fam (memberAddr fam b)) := by
  cases fam with
  | inet =>
    have hv4 : a.family = afInet := hfam
    rw [if_pos hv4] at h
    rw [h]
    rfl
  | inet6 =>
    have hne : a.family ≠ afInet := by
      rw [hfam]
      decide
    rw [if_neg hne] at h
    rw [h]
    exact Ipcs.ipv6_ofIpv6 _

end Member

section Session
variable {ι : Type} {sys : System} {stk : Stack} {thread : UInt8} {s : Session ι} {tgt : Target}

theorem vportSelectLocalIp_spec {v : Vport} {f : Family} {rip ip : Ipcs}
    (h : vportSelectLocalIp v f rip = some ip) :
    ∃ conf ∈ v.ips f, ip = conf.ip ∧ isSameSubnet f conf.ip rip conf.mask = true := by
  obtain ⟨conf, hconf, rfl⟩ := Option.map_eq_some_iff.mp h
  have hsubnet := List.find?_some hconf
  exact ⟨conf, List.mem_of_find?_eq_some hconf, rfl, hsubnet⟩

theorem alocate_entered {ports : Ports} {portStart : UInt16}
    (h : (alAlocateNewPortWithSession sys thread ports portStart s).entered = true) :
    ∃ lport, (alAlocateNewPortWithSession sys thread ports portStart s).session =
      { s with localPort := lport } := by
  simp only [alAlocateNewPortWithSession] at h ⊢
  split at h
  · cases h
  · exact ⟨_, rfl⟩

theorem simpleTrans_entered {ports : Ports} {portStart : UInt16} {f : Family}
    (h : (simpleTrans sys thread ports portStart s f tgt).entered = true) :
    (simpleTrans sys thread ports portStart s f tgt).session.remoteAddr =
        s.remoteAddr.assign f (memberAddr f tgt.margs.addr) ∧
      (simpleTrans sys thread ports portStart s f tgt).session.remotePort = tgt.margs.port ∧
      vportSelectLocalIp (sys.vports tgt.oif) f (s.remoteAddr.assign f (memberAddr f tgt.margs.addr)) =
        some (simpleTrans sys thread ports portStart s f tgt).session.localAddr := by
  simp only [simpleTrans] at h ⊢
  split at h
  · cases h
  · rename_i ip hip
    obtain ⟨lport, hsession⟩ := alocate_entered h
    simp only [hsession]
    exact ⟨rfl, rfl, hip⟩

theorem bindRemote_ftype (sys : System) (thread : UInt8) (ports : Ports) (portStart : UInt16)
    (u : Session ι) (pkt : Packet) (tgt : Target) :
    (bindRemote sys thread ports portStart u pkt tgt).session.ftype = u.ftype := by
  simp only [bindRemote, simpleTrans, passThrough, alAlocateNewPortWithSession]
  split
  · split
    · rfl
    · split <;> rfl
  · rfl

end Session

section Established
variable {ι : Type} [DecidableEq ι] {sys : System} {stk : Stack} {thread : UInt8} {f : AlFargs}
  {pkt : Packet} {c u : ι} {sh sh' : Shared ι} {table table' : List (List ι)}

theorem pair_fields (hne : u ≠ c) {s : Session ι} {tgt : Target}
    (h : resolve sys (sh.heap u) pkt.family tgt = some s) :
    SameFields ((sh.pair c u s f).heap u) (sh.heap u) := by
  obtain ⟨n, -, rfl⟩ := Option.map_eq_some_iff.mp h
  simp only [Shared.pair, update_of_ne hne, update_self]
  exact ⟨rfl, rfl, rfl, rfl, rfl, rfl⟩

structure Established (sys : System) (stk : Stack) (thread : UInt8) (f : AlFargs) (pkt : Packet)
    (sh : Shared ι) (table : List (List ι)) (c u : ι) (sh' : Shared ι) (table' : List (List ι)) : Prop where
  pool : sh.pool = c :: u :: sh'.pool
  others : ∀ x, x ≠ c → x ≠ u → sh'.heap x = sh.heap x
  table : table' = addPair table sh'.heap c u
  client : (sh'.heap c).key = pkt.key ∧ (sh'.heap c).isUps = false ∧ (sh'.heap c).up = u ∧
    (sh'.heap c).ftype = f.ftype
  upstream : (sh'.heap u).isUps = true ∧ (sh'.heap u).up = c ∧ (sh'.heap u).ftype = f.ftype
  bound : ∃ margs nexthop oif s, chooseMember sys stk f = some (some margs) ∧
    routeTo sys stk.nexthop margs.addr = some (nexthop, oif) ∧ s.ftype = f.ftype ∧
    (bindRemote sys thread sh.ports sh.portStart s pkt ⟨margs, nexthop, oif⟩).entered = true ∧
    (bindRemote sys thread sh.ports sh.portStart s pkt ⟨margs, nexthop, oif⟩).ports = sh'.ports ∧
    SameFields (sh'.heap u)
      (bindRemote sys thread sh.ports sh.portStart s pkt ⟨margs, nexthop, oif⟩).session

structure Prepared (sh sh₁ : Shared ι) (c u : ι) (f : AlFargs) (pkt : Packet) : Prop
    extends Opened sh sh₁ c u f pkt where
  pool : sh.pool = c :: u :: sh₁.pool
  others : ∀ x, x ≠ c → x ≠ u → sh₁.heap x = sh.heap x
  clientSide : (sh₁.heap c).isUps = false ∧ (sh₁.heap c).ftype = f.ftype
  upstreamSide : (sh₁.heap u).isUps = true

theorem prepared_openUpstream (sys : System) (f : AlFargs) (pkt : Packet) (hne : u ≠ c) {pool : List ι}
    (hpool : sh.pool = c :: u :: pool) :
    Prepared sh (({ sh with pool }.openClient c f).openUpstream sys c u f pkt) c u f pkt := by
  obtain ⟨hports, hstart, hclient, hfields, hftype⟩ := opened_openUpstream hne sys { sh with pool } f pkt
  refine ⟨⟨hports, hstart, hclient, hfields, hftype⟩, hpool, ?_, ?_, ?_⟩
  · intro x hc hu
    simp only [Shared.openUpstream, Shared.openClient, update_of_ne hc, update_of_ne hu]
  · simp only [Shared.openUpstream, Shared.openClient, update_self,
      update_of_ne hne.symm]
    exact ⟨rfl, rfl⟩
  · simp only [Shared.openUpstream, update_self, update_of_ne hne, sessionMemInit]

theorem Prepared.adopt {sh₁ : Shared ι} (h : Prepared sh sh₁ c u f pkt) (hne : u ≠ c) :
    Prepared sh (sh₁.adopt c u) c u f pkt where
  toOpened := h.toOpened.adopt hne
  pool := h.pool
  others x hc hu := by
    rw [← h.others x hc hu]
    exact update_of_ne hu _ _
  clientSide := by
    simp only [Shared.adopt, update_of_ne hne.symm]
    exact h.clientSide
  upstreamSide := by
    simp only [Shared.adopt, update_self]
    exact h.upstreamSide

theorem Prepared.established {sh₁ : Shared ι} (h : Prepared sh sh₁ c u f pkt) (hne : u ≠ c)
    {margs : AlMargs} {nexthop : Ipcs} {oif : UInt8} (hmember : chooseMember sys stk f = some (some margs))
    (hroute : routeTo sys stk.nexthop margs.addr = some (nexthop, oif)) {sh₂ : Shared ι}
    (hbind : sh₁.bind sys thread u pkt ⟨margs, nexthop, oif⟩ = (true, sh₂)) {up : Session ι}
    (hup : resolve sys (sh₂.heap u) pkt.family ⟨margs, nexthop, oif⟩ = some up) :
    Established sys stk thread f pkt sh table c u (sh₂.pair c u up f)
      (addPair table (sh₂.pair c u up f).heap c u) := by
  have hsame := pair_fields (f := f) hne hup
  obtain ⟨n, -, rfl⟩ := Option.map_eq_some_iff.mp hup
  have hftype := bindRemote_ftype sys thread sh.ports sh.portStart (sh₁.heap u) pkt ⟨margs, nexthop, oif⟩
  have hisUps := (bindRemote_fits sys thread sh.ports sh.portStart (sh₁.heap u) pkt
    ⟨margs, nexthop, oif⟩).isUps
  have hentered := congrArg Prod.fst hbind
  have hsh₂ := congrArg Prod.snd hbind
  simp only [Shared.bind, h.ports, h.portStart] at hentered hsh₂
  subst hsh₂
  refine ⟨h.pool, ?_, rfl, ?_, ?_, margs, nexthop, oif, sh₁.heap u, hmember, hroute, h.ftype, hentered, rfl, ?_⟩
  · intro x hxc hxu
    rw [← h.others x hxc hxu]
    simp only [Shared.pair, update_of_ne hxc, update_of_ne hxu]
  · simp only [Shared.pair, update_self, update_of_ne hne.symm]
    exact ⟨h.client, h.clientSide.1, trivial, h.clientSide.2⟩
  · simp only [Shared.pair, update_self, update_of_ne hne]
    exact ⟨hisUps.trans h.upstreamSide, trivial, hftype.trans h.ftype⟩
  · simpa only [update_self] using hsame

theorem alService_established (hpool : sh.pool.Nodup)
    (h : alService sys stk thread f pkt sh table = some (some (c, u), sh', table')) :
    Established sys stk thread f pkt sh table c u sh' table' := by
  simp only [alService] at h
  split at h
  · cases h
  · split at h
    · cases h
    · cases h
    · rename_i c' u' pool hsplit
      rw [hsplit] at hpool
      have hne : u' ≠ c' := fun heq => (List.nodup_cons.mp hpool).1 (heq ▸ List.mem_cons_self)
      have hprepared := (prepared_openUpstream sys f pkt hne hsplit).adopt hne
      simp only [Shared.connect] at h
      split at h
      · cases h
      · cases h
      · rename_i margs hmember
        split at h
        · cases h
        · rename_i nexthop oif hroute
          split at h
          · cases h
          · rename_i sh₂ hbind
            simp only [Shared.complete] at h
            split at h
            · cases h
            · rename_i up hup
              cases h
              exact hprepared.established hne hmember hroute hbind hup

/-- A translated session goes to the member that was chosen, from the right place, exactly when
the member has the family of the packet. -/
theorem translated_iff (hpool : sh.pool.Nodup) (hf : f.ftype = fltSimpleTrans)
    (h : alService sys stk thread f pkt sh table = some (some (c, u), sh', table')) :
    ∃ m, chosen sys stk f = some m ∧
      (Translated sys stk pkt.family m (sh'.heap u) ↔ m.addr.family = familyByte pkt.family) := by
  obtain ⟨margs, nexthop, oif, s, hchoose, hroute, htype, hentered, -, hsame⟩ :=
    (alService_established hpool h).bound
  obtain ⟨m, addr, hm, hport, haddr⟩ := chooseMember_spec hchoose
  simp only [bindRemote, htype.trans hf, if_true] at hentered hsame
  obtain ⟨hremote, hrport, hlocal⟩ := simpleTrans_entered hentered
  obtain ⟨conf, hconf, hip, hsubnet⟩ := vportSelectLocalIp_spec hlocal
  refine ⟨m, hm, Translated.family, fun hfam => ⟨?_, ?_, hfam, nexthop, oif, ?_, conf, hconf, ?_, ?_⟩⟩
  · rw [hsame.remoteAddr, hremote]
    exact isAddr_assign hfam haddr _
  · rw [hsame.remotePort, hrport, hport]
  · rw [← routeTo_margs stk.nexthop haddr]
    exact hroute
  · rw [hsame.localAddr, hip]
  · rw [hsame.remoteAddr, hremote]
    exact hsubnet

end Established

def oneAddress : System :=
  { addressless with vports := fun _ => ⟨3, 0, [⟨⟨21, 0⟩, ⟨0xfffffff0, 0⟩⟩], []⟩ }

def otherFamily : System :=
  { oneAddress with groups := oneMember ⟨20, afInet6, 20, 7⟩ 80 }

def twoObjects : World ℕ :=
  start (fun _ => blankSession) [1, 2] 0

theorem translated_to_ipv4_member :
    ∃ sh' table' m, alService oneAddress blankStack 0 ⟨1, 1, fltSimpleTrans⟩ (tcp4 10 1000 50 80)
        twoObjects.shared (twoObjects.table 0) = some (some (1, 2), sh', table') ∧
      chosen oneAddress blankStack ⟨1, 1, fltSimpleTrans⟩ = some m ∧
      m.addr.family = familyByte .inet ∧ Translated oneAddress blankStack .inet m (sh'.heap 2) := by
  have heval : ((alService oneAddress blankStack 0 ⟨1, 1, fltSimpleTrans⟩ (tcp4 10 1000 50 80)
        twoObjects.shared (twoObjects.table 0)).any fun r => r.1 == some (1, 2)) = true ∧
      ((chosen oneAddress blankStack ⟨1, 1, fltSimpleTrans⟩).any fun m =>
        m.addr.family == familyByte .inet) = true := by
    decide +kernel
  obtain ⟨hcall, hfam⟩ := heval
  obtain ⟨⟨r, sh', table'⟩, hcall, hr⟩ := (Option.any_eq_true _ _).mp hcall
  cases eq_of_beq hr
  obtain ⟨m, hm, hiff⟩ := translated_iff (by decide) rfl hcall
  rw [hm] at hfam
  have hfam := eq_of_beq hfam
  exact ⟨sh', table', m, hcall, hm, hfam, hiff.mpr hfam⟩

theorem ipv4_packet_to_ipv6_member :
    ∃ sh' table' m, alService otherFamily blankStack 0 ⟨1, 1, fltSimpleTrans⟩ (tcp4 10 1000 50 80)
        twoObjects.shared (twoObjects.table 0) = some (some (1, 2), sh', table') ∧
      chosen otherFamily blankStack ⟨1, 1, fltSimpleTrans⟩ = some m ∧
      m.addr.family = familyByte .inet6 ∧ (sh'.heap 2).inType = false ∧
      ¬ Translated otherFamily blankStack .inet m (sh'.heap 2) := by
  have heval : ((alService otherFamily blankStack 0 ⟨1, 1, fltSimpleTrans⟩ (tcp4 10 1000 50 80)
        twoObjects.shared (twoObjects.table 0)).any fun r => r.1 == some (1, 2) && !(r.2.1.heap 2).inType) = true ∧
      ((chosen otherFamily blankStack ⟨1, 1, fltSimpleTrans⟩).any fun m =>
        m.addr.family == familyByte .inet6) = true := by
    decide +kernel
  obtain ⟨hcall, hfam⟩ := heval
  obtain ⟨⟨r, sh', table'⟩, hcall, hr⟩ := (Option.any_eq_true _ _).mp hcall
  obtain ⟨m, hm, hfam⟩ := (Option.any_eq_true _ _).mp hfam
  rw [Bool.and_eq_true, Bool.not_eq_true'] at hr
  cases eq_of_beq hr.1
  have hfam := eq_of_beq hfam
  refine ⟨sh', table', m, hcall, hm, hfam, hr.2, fun h => ?_⟩
  exact absurd (hfam.symm.trans h.family) (by decide)

end Aware.Service
