import Aware.Session.Ports

/-!
Sessions and what freeing one does. A session is an object of a pool, named by a pointer; it
keeps the fields of its last use when it goes back to the pool.
-/
namespace Aware.Sessions

structure Session (ι : Type) where
  isUps : Bool
  portAlloc : Bool
  proto : UInt8
  isDr : Bool
  ftype : UInt8
  inType : Bool
  portid : UInt8
  stout : ℕ
  up : ι
  localAddr : Ipcs
  remoteAddr : Ipcs
  localPort : UInt16
  remotePort : UInt16
  toHaddr : BitVec 48
  fromHaddr : BitVec 48
  fid : UInt32
  mid : UInt32
  deriving DecidableEq

def sessionIdleTimeout : ℕ := 60 * 5

def Session.tuple4 {ι : Type} (s : Session ι) : Tuple (BitVec 32) :=
  ⟨s.remoteAddr.ipv4, s.localAddr.ipv4, s.remotePort, s.localPort, s.proto⟩

def Session.tuple6 {ι : Type} (s : Session ι) : Tuple (BitVec 128) :=
  ⟨s.remoteAddr.ipv6, s.localAddr.ipv6, s.remotePort, s.localPort, s.proto⟩

/-- What `al_session_free` does to the port table: it deletes by the fields of the session,
whoever inserted the entry. -/
def alSessionFree {ι : Type} (p : Ports) (s : Session ι) : Ports :=
  if s.inType then alPortDelV6 p s.tuple6 else alPortDelV4 p s.tuple4

end Aware.Sessions
