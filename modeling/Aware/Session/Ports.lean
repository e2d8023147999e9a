import Mathlib.Data.BitVec
import Mathlib.Data.List.Basic

/-!
The port table: one entry for each upstream session, shared by all threads, saying which
thread owns the session.
-/
namespace Aware.Sessions

/-- `ipcs_t`: the IPv4 address is the low word of the IPv6 one on a little-endian host. -/
structure Ipcs where
  ipv4 : BitVec 32
  upper : BitVec 96
  deriving DecidableEq, Repr

def Ipcs.ipv6 (a : Ipcs) : BitVec 128 := a.upper ++ a.ipv4

def Ipcs.ofIpv6 (a : BitVec 128) : Ipcs := ⟨a.extractLsb' 0 32, a.extractLsb' 32 96⟩

structure Tuple (A : Type) where
  rip : A
  lip : A
  rport : UInt16
  lport : UInt16
  proto : UInt8
  deriving DecidableEq, Repr

structure PortEntry (A : Type) where
  tuple : Tuple A
  threadId : UInt8
  deriving DecidableEq, Repr

/-- The two tables. Entries stand newest first, so that the list of a bucket is the part of the
list with its key. -/
structure Ports where
  v4 : List (PortEntry (BitVec 32))
  v6 : List (PortEntry (BitVec 128))
  deriving DecidableEq, Repr

def portMask : BitVec 32 := 0xffff

def connectSessionKeyV4 (t : Tuple (BitVec 32)) (mask : BitVec 32) : BitVec 32 :=
  ((t.rip ^^^ t.lip) ||| (t.rport ^^^ t.lport).toBitVec.setWidth 32 ||| t.proto.toBitVec.setWidth 32)
    &&& mask

def connectSessionKeyV6 (t : Tuple (BitVec 128)) (mask : BitVec 32) : BitVec 32 :=
  let key :=
    (t.rip ^^^ t.lip) ||| (t.rport ^^^ t.lport).toBitVec.setWidth 128 ||| t.proto.toBitVec.setWidth 128
  (((key &&& 0xffffffff) ^^^ (key >>> 32)).setWidth 32) &&& mask

section Table
variable {A : Type} [DecidableEq A]

def portInsert (l : List (PortEntry A)) (t : Tuple A) (threadId : UInt8) : List (PortEntry A) :=
  ⟨t, threadId⟩ :: l

def portDel (l : List (PortEntry A)) (t : Tuple A) : List (PortEntry A) :=
  l.eraseP fun e => e.tuple = t

def whichThread (l : List (PortEntry A)) (t : Tuple A) : Option UInt8 :=
  (l.find? fun e => e.tuple = t).map PortEntry.threadId

/-- A zero address matches any, but only within the bucket of the zero address. -/
def isConnectPortAlreadyUsed [Zero A] (key : Tuple A → BitVec 32) (l : List (PortEntry A))
    (t : Tuple A) : Bool :=
  l.any fun e =>
    key e.tuple = key t && e.tuple.lport = t.lport && (e.tuple.rip = t.rip || t.rip = 0) &&
      (e.tuple.lip = t.lip || t.lip = 0) && e.tuple.rport = t.rport && e.tuple.proto = t.proto

end Table

def alPortInsertV4 (p : Ports) (t : Tuple (BitVec 32)) (threadId : UInt8) : Ports :=
  { p with v4 := portInsert p.v4 t threadId }

def alPortInsertV6 (p : Ports) (t : Tuple (BitVec 128)) (threadId : UInt8) : Ports :=
  { p with v6 := portInsert p.v6 t threadId }

def alPortDelV4 (p : Ports) (t : Tuple (BitVec 32)) : Ports := { p with v4 := portDel p.v4 t }

def alPortDelV6 (p : Ports) (t : Tuple (BitVec 128)) : Ports := { p with v6 := portDel p.v6 t }

def whichThreadV4 (p : Ports) (t : Tuple (BitVec 32)) : Option UInt8 := whichThread p.v4 t

def whichThreadV6 (p : Ports) (t : Tuple (BitVec 128)) : Option UInt8 := whichThread p.v6 t

def isConnectPortAlreadyUsedV4 (p : Ports) (t : Tuple (BitVec 32)) : Bool :=
  isConnectPortAlreadyUsed (connectSessionKeyV4 · portMask) p.v4 t

def isConnectPortAlreadyUsedV6 (p : Ports) (t : Tuple (BitVec 128)) : Bool :=
  isConnectPortAlreadyUsed (connectSessionKeyV6 · portMask) p.v6 t

end Aware.Sessions
