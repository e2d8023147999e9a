import Aware.Filter.Store
import Aware.Member.Group
import Aware.Router
import Aware.Session.Keys

/-!
# Setting up a session pair

`al_service` takes two session objects from the pool, fills the client one from the packet and
the upstream one from the packet, the chosen member and the egress port, enters the upstream one
into the port table, and links both. When something is missing it frees both again.
-/
namespace Aware.Service
open Function Aware.Filter Aware.Member Aware.Sessions

def fltNat : UInt8 := 1

def fltSimpleTrans : UInt8 := 3

def fltGslb : UInt8 := 4

def netOrder {w : ℕ} (x : BitVec w) : BitVec w :=
  (List.range (w / 8)).foldl (fun acc i => (acc <<< 8) ||| ((x >>> (8 * i)) &&& 0xff)) 0

structure IpConf where
  ip : Ipcs
  mask : Ipcs
deriving DecidableEq, Repr

structure Vport where
  port : UInt8
  haddr : BitVec 48
  ipv4 : List IpConf
  ipv6 : List IpConf

/-- What the control plane and the neighbour tables hold while a packet is served. -/
structure System where
  groups : Groups
  routes : Router.Tables
  filters : Filters
  vports : UInt8 → Vport
  arp : BitVec 32 → Option (UInt8 × BitVec 48)
  ndp : BitVec 128 → Option (UInt8 × BitVec 48)

/-- The locals of `session_init_remote` that are read before they are wholly written. -/
structure Stack where
  margs : AlMargs
  nexthop : Ipcs

structure Packet where
  family : Family
  srcAddr : Ipcs
  dstAddr : Ipcs
  proto : UInt8
  srcPort : UInt16
  dstPort : UInt16
  port : UInt8
  sHaddr : BitVec 48
  dHaddr : BitVec 48

def isSameSubnet (f : Family) (ip tip mask : Ipcs) : Bool :=
  match f with
  | .inet => ip.ipv4 &&& mask.ipv4 == tip.ipv4 &&& mask.ipv4
  | .inet6 => ip.ipv6 &&& mask.ipv6 == tip.ipv6 &&& mask.ipv6

def Vport.ips (v : Vport) : Family → List IpConf
  | .inet => v.ipv4
  | .inet6 => v.ipv6

def vportSelectLocalIp (v : Vport) (f : Family) (rip : Ipcs) : Option Ipcs :=
  ((v.ips f).find? fun s => isSameSubnet f s.ip rip s.mask).map IpConf.ip

section Sessions
variable {ι : Type}

def alSessionCreate (s : Session ι) : Session ι :=
  { s with portAlloc := false, proto := 0, isDr := false, stout := sessionIdleTimeout }

def sessionMemInit (s : Session ι) (isUp : Bool) : Session ι :=
  { s with isUps := isUp, portAlloc := false, stout := sessionIdleTimeout }

def Packet.inType (pkt : Packet) : Bool :=
  pkt.family == .inet6

def sessionInitLocal (sys : System) (s : Session ι) (pkt : Packet) : Session ι :=
  { s with
    toHaddr := pkt.dHaddr
    fromHaddr := pkt.sHaddr
    remoteAddr := s.remoteAddr.assign pkt.family pkt.srcAddr
    localAddr := s.localAddr.assign pkt.family pkt.dstAddr
    inType := pkt.inType
    proto := pkt.proto
    localPort := pkt.dstPort
    remotePort := pkt.srcPort
    portid := (sys.vports pkt.port).port }

/-- `al_router_find` without a source; an IPv4 next hop leaves the rest of `nexthop`. -/
def routeTo (sys : System) (nexthop : Ipcs) (addr : AlAddr) : Option (Ipcs × UInt8) :=
  if addr.family = afInet then
    (Router.alRouterFind sys.routes .inet none (netOrder addr.naddr4)).map fun hop =>
      ({ nexthop with ipv4 := netOrder hop.1 }, hop.2)
  else
    (Router.alRouterFind sys.routes .inet6 none (netOrder addr.naddr6)).map fun hop =>
      (.ofIpv6 (netOrder hop.1), hop.2)

structure Target where
  margs : AlMargs
  nexthop : Ipcs
  oif : UInt8

/-- `al_member_lookup`: `none` is a scheduler that left its memory and `some none` the return
code `-1`. -/
def chooseMember (sys : System) (stk : Stack) (f : AlFargs) : Option (Option AlMargs) :=
  (alMemberLookup sys.groups f.fid f.gid stk.margs).map fun l => l.slot.map fun _ => l.margs

def nextPort (portStart : UInt16) : UInt16 :=
  if portStart = 0xea60 then 1 else portStart + 1

def tryPorts (taken : UInt16 → Bool) : ℕ → UInt16 → UInt16 × Option UInt16
  | 0, portStart => (portStart, none)
  | n + 1, portStart =>
    let lport := htons (nextPort portStart)
    if taken lport then tryPorts taken n (nextPort portStart)
    else (nextPort portStart, some lport)

/-- A filter on the local address and port; the IPv6 branch asks the IPv4 table too, with the low
word of the address. -/
def filterHits (sys : System) (addr : Ipcs) (lport : UInt16) (proto : UInt8) : Bool :=
  match alFilterSearch sys.filters .inet (netOrder addr.ipv4) lport proto with
  | some (some _) => true
  | _ => false

def portUsed (ports : Ports) (s : Session ι) (lport : UInt16) : Bool :=
  if s.inType then isConnectPortAlreadyUsedV6 ports { s.tuple6 with lport }
  else isConnectPortAlreadyUsedV4 ports { s.tuple4 with lport }

/-- `al_alocate_new_port_with_session` up to the insertion. -/
@[irreducible] def alAlocateNewPort (sys : System) (ports : Ports) (portStart : UInt16)
    (s : Session ι) : UInt16 × Option UInt16 :=
  tryPorts (fun lport => filterHits sys s.localAddr lport s.proto || portUsed ports s lport) 0xea60
    portStart

/-- What the second part of `session_init_remote` leaves; `entered` says that it went through,
with the session in the port table. -/
structure Bound (ι : Type) where
  session : Session ι
  ports : Ports
  portStart : UInt16
  entered : Bool

def alAlocateNewPortWithSession (sys : System) (thread : UInt8) (ports : Ports)
    (portStart : UInt16) (u : Session ι) : Bound ι :=
  match alAlocateNewPort sys ports portStart u with
  | (portStart, none) => ⟨u, ports, portStart, false⟩
  | (portStart, some lport) =>
    let u := { u with localPort := lport }
    ⟨u, alPortInsert ports u thread, portStart, true⟩

def memberAddr (f : Family) (addr : AlAddr) : Ipcs :=
  match f with
  | .inet => ⟨addr.naddr4, 0⟩
  | .inet6 => .ofIpv6 addr.naddr6

def setMember (f : Family) (margs : AlMargs) (u : Session ι) : Session ι :=
  { u with
    remoteAddr := u.remoteAddr.assign f (memberAddr f margs.addr)
    remotePort := margs.port }

def simpleTrans (sys : System) (thread : UInt8) (ports : Ports) (portStart : UInt16)
    (u : Session ι) (f : Family) (tgt : Target) : Bound ι :=
  let u := setMember f tgt.margs u
  match vportSelectLocalIp (sys.vports tgt.oif) f u.remoteAddr with
  | none => ⟨u, ports, portStart, false⟩
  | some ip => alAlocateNewPortWithSession sys thread ports portStart { u with localAddr := ip }

def passThrough (thread : UInt8) (ports : Ports) (portStart : UInt16) (u : Session ι)
    (pkt : Packet) : Bound ι :=
  let u := { u with
    remoteAddr := u.remoteAddr.assign pkt.family pkt.dstAddr
    localAddr := u.localAddr.assign pkt.family pkt.srcAddr
    localPort := pkt.srcPort
    remotePort := pkt.dstPort }
  ⟨u, alPortInsert ports u thread, portStart, true⟩

def bindRemote (sys : System) (thread : UInt8) (ports : Ports) (portStart : UInt16)
    (u : Session ι) (pkt : Packet) (tgt : Target) : Bound ι :=
  let u := { u with inType := pkt.inType, proto := pkt.proto }
  if u.ftype = fltSimpleTrans then simpleTrans sys thread ports portStart u pkt.family tgt
  else passThrough thread ports portStart u pkt

def resolve (sys : System) (u : Session ι) (f : Family) (tgt : Target) : Option (Session ι) :=
  let found :=
    match f with
    | .inet => sys.arp tgt.nexthop.ipv4
    | .inet6 => sys.ndp tgt.nexthop.ipv6
  found.map fun n =>
    { u with fromHaddr := n.2, portid := n.1, toHaddr := (sys.vports tgt.oif).haddr }

end Sessions

/-- What the threads share. The pool hands out its first object. -/
structure Shared (ι : Type) where
  ports : Ports
  portStart : UInt16
  heap : ι → Session ι
  pool : List ι

section Service
variable {ι : Type} [DecidableEq ι]

def Shared.free (sh : Shared ι) (x : ι) : Shared ι :=
  { sh with ports := alSessionFree sh.ports (sh.heap x), pool := x :: sh.pool }

def Shared.openClient (sh : Shared ι) (c : ι) (f : AlFargs) : Shared ι :=
  { sh with heap := update sh.heap c { alSessionCreate (sh.heap c) with ftype := f.ftype } }

def Shared.openUpstream (sh : Shared ι) (sys : System) (c u : ι) (f : AlFargs) (pkt : Packet) :
    Shared ι :=
  let up := { alSessionCreate (sh.heap u) with ftype := f.ftype, fid := f.fid }
  let heap := update sh.heap u (sessionMemInit up true)
  { sh with
    heap := update heap c (sessionInitLocal sys (sessionMemInit (heap c) false) pkt) }

def Shared.adopt (sh : Shared ι) (c u : ι) : Shared ι :=
  { sh with heap := update sh.heap u { sh.heap u with mid := (sh.heap c).mid } }

def Shared.bind (sh : Shared ι) (sys : System) (thread : UInt8) (u : ι) (pkt : Packet)
    (tgt : Target) : Bool × Shared ι :=
  let b := bindRemote sys thread sh.ports sh.portStart (sh.heap u) pkt tgt
  (b.entered, { sh with
    ports := b.ports, portStart := b.portStart, heap := update sh.heap u b.session })

def Shared.pair (sh : Shared ι) (c u : ι) (up : Session ι) (f : AlFargs) : Shared ι :=
  { sh with
    heap := update (update sh.heap u { up with up := c }) c
      { sh.heap c with fid := f.fid, up := u } }

def Shared.complete (sh : Shared ι) (sys : System) (f : AlFargs) (pkt : Packet) (c u : ι)
    (tgt : Target) (table : List (List ι)) : Option (ι × ι) × Shared ι × List (List ι) :=
  match resolve sys (sh.heap u) pkt.family tgt with
  | none => (none, (sh.free c).free u, table)
  | some up =>
    let sh := sh.pair c u up f
    (some (c, u), sh, alSessionAdd (alSessionAdd table sh.heap c) sh.heap u)

/-- `session_init_remote` and the end of `al_service`; `none` is a scheduler that left its
memory. -/
def Shared.connect (sh : Shared ι) (sys : System) (stk : Stack) (thread : UInt8) (f : AlFargs)
    (pkt : Packet) (c u : ι) (table : List (List ι)) :
    Option (Option (ι × ι) × Shared ι × List (List ι)) :=
  match chooseMember sys stk f with
  | none => none
  | some none => some (none, (sh.free c).free u, table)
  | some (some margs) =>
    let sh := sh.adopt c u
    match routeTo sys stk.nexthop margs.addr with
    | none => some (none, (sh.free c).free u, table)
    | some (nexthop, oif) =>
      match sh.bind sys thread u pkt ⟨margs, nexthop, oif⟩ with
      | (false, sh) => some (none, (sh.free c).free u, table)
      | (true, sh) => some (sh.complete sys f pkt c u ⟨margs, nexthop, oif⟩ table)

/-- The objects of the pair that `al_service` established, if it did, and what it leaves. -/
def alService (sys : System) (stk : Stack) (thread : UInt8) (f : AlFargs) (pkt : Packet)
    (sh : Shared ι) (table : List (List ι)) :
    Option (Option (ι × ι) × Shared ι × List (List ι)) :=
  if f.ftype = fltGslb then some (none, sh, table)
  else
    match sh.pool with
    | [] => some (none, sh, table)
    | [c] => some (none, (({ sh with pool := [] }).openClient c f).free c, table)
    | c :: u :: pool =>
      ((({ sh with pool }).openClient c f).openUpstream sys c u f pkt).connect sys stk thread f pkt
        c u table

end Service

end Aware.Service
