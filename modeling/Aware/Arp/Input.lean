import Aware.Arp.Request

/-!
# What the neighbour tables learn

Every ARP packet is offered to `al_arp_input`; the control plane enters neighbours directly. The
tables follow the announcements that are accepted.
-/
namespace Aware.Arp
open Aware.Frames Aware.Service Aware.Sessions

def sizeofEtharpPacket : ℕ := 42

section Header
variable (p : Mbuf)

def arpHrd : UInt16 := field16 p.mem 14

def arpPro : UInt16 := field16 p.mem 16

def arpHln : UInt8 := p.mem 18

def arpPln : UInt8 := p.mem 19

def arpSha : BitVec 48 := BitVec.ofNat 48 (field p.mem 22 6)

def arpSip : BitVec 32 := BitVec.ofNat 32 (field p.mem 28 4)

def arpTip : BitVec 32 := BitVec.ofNat 32 (field p.mem 38 4)

end Header

/-- An address of zero is not entered; the result is 0 in any case. -/
def etharpUpdateArpEntry (t : Table 32) (alloc : Bool) (portid : UInt16) (ipaddr : BitVec 32)
    (ethaddr : BitVec 48) : Int × Table 32 :=
  if ipaddr = 0 then (0, t) else (0, (arpAddEntry t alloc ipaddr ethaddr portid).2)

/-- `vports` is `g_vport_ary` with the addresses of the ports at the time. -/
def alArpInput (t : Table 32) (alloc : Bool) (vports : UInt8 → Vport) (p : Mbuf) : Int × Table 32 :=
  if p.dataLen < sizeofEtharpPacket then (-1, t)
  else if arpHrd p ≠ htons hwtypeEthernet ∨ arpHln p ≠ 6 ∨ arpPln p ≠ 4 ∨
      arpPro p ≠ htons ethtypeIp then (-1, t)
  else if arpSip p ≠ arpTip p then
    -- an address of the port itself counts as a conflict
    if vportHasIp (vports p.port) ⟨arpSip p, 0⟩ .inet then (0, t)
    else etharpUpdateArpEntry t alloc p.port.toUInt16 (arpSip p) (arpSha p)
  else if !vportHasIp (vports p.port) ⟨arpSip p, 0⟩ .inet then
    etharpUpdateArpEntry t alloc p.port.toUInt16 (arpSip p) (arpSha p)
  else (0, t)

inductive Event where
  | input (vports : UInt8 → Vport) (p : Mbuf)
  | arpAdd (ipaddr : BitVec 32) (haddr : BitVec 48) (portid : UInt16)
  | ndpAdd (ipaddr : BitVec 128) (haddr : BitVec 48) (portid : UInt16)

def step (s : Neighbours) : Event → Neighbours
  | .input vports p => { s with arp := (alArpInput s.arp true vports p).2 }
  | .arpAdd ipaddr haddr portid => { s with arp := (arpAddEntry s.arp true ipaddr haddr portid).2 }
  | .ndpAdd ipaddr haddr portid => { s with ndp := (ndpAddEntry s.ndp true ipaddr haddr portid).2 }

structure Announcement (w : ℕ) where
  ipaddr : BitVec w
  haddr : BitVec 48
  portid : UInt16

def WellFormed (p : Mbuf) : Prop :=
  sizeofEtharpPacket ≤ p.dataLen ∧ arpHrd p = htons hwtypeEthernet ∧ arpHln p = 6 ∧ arpPln p = 4 ∧
    arpPro p = htons ethtypeIp

instance (p : Mbuf) : Decidable (WellFormed p) :=
  inferInstanceAs (Decidable (_ ∧ _))

def Owns (v : Vport) (ipaddr : BitVec 32) : Prop :=
  ∃ s ∈ v.ipv4, s.ip.ipv4 = ipaddr

instance (v : Vport) (ipaddr : BitVec 32) : Decidable (Owns v ipaddr) :=
  inferInstanceAs (Decidable (∃ s ∈ v.ipv4, _))

/-- The announcement that is accepted: of a well-formed packet for an address that is neither
zero nor one of the port. -/
def Event.announces : Event → Option (Announcement 32)
  | .input vports p =>
    if WellFormed p ∧ arpSip p ≠ 0 ∧ ¬ Owns (vports p.port) (arpSip p) then
      some ⟨arpSip p, arpSha p, p.port.toUInt16⟩
    else none
  | .arpAdd ipaddr haddr portid => some ⟨ipaddr, haddr, portid⟩
  | .ndpAdd _ _ _ => none

def Event.announces6 : Event → Option (Announcement 128)
  | .input _ _ => none
  | .arpAdd _ _ _ => none
  | .ndpAdd ipaddr haddr portid => some ⟨ipaddr, haddr, portid⟩

def latest {w : ℕ} (l : List (Announcement w)) (addr : BitVec w) : Option (UInt16 × BitVec 48) :=
  (l.reverse.find? fun a => a.ipaddr == addr).map fun a => (a.portid, a.haddr)

theorem vportHasIp_iff (v : Vport) (ipaddr : BitVec 32) :
    vportHasIp v ⟨ipaddr, 0⟩ .inet = true ↔ Owns v ipaddr := by
  simp [vportHasIp, Owns]

section Input
variable {t : Table 32} {vports : UInt8 → Vport} {p : Mbuf}

theorem alArpInput_malformed (h : ¬ WellFormed p) : (alArpInput t true vports p).2 = t := by
  rw [alArpInput]
  split
  · rfl
  · rename_i hlen
    rw [if_pos]
    by_contra hfields
    push Not at hfields
    exact h ⟨Nat.not_lt.mp hlen, hfields⟩

theorem alArpInput_wellFormed (h : WellFormed p) :
    alArpInput t true vports p =
      if vportHasIp (vports p.port) ⟨arpSip p, 0⟩ .inet then (0, t)
      else etharpUpdateArpEntry t true p.port.toUInt16 (arpSip p) (arpSha p) := by
  obtain ⟨hlen, hhrd, hhln, hpln, hpro⟩ := h
  rw [alArpInput, if_neg (Nat.not_lt.mpr hlen), if_neg (by simp [hhrd, hhln, hpln, hpro])]
  cases vportHasIp (vports p.port) ⟨arpSip p, 0⟩ .inet <;> simp

theorem alArpInput_eq :
    (alArpInput t true vports p).2 = ((Event.input vports p).announces).elim t fun a =>
      (arpAddEntry t true a.ipaddr a.haddr a.portid).2 := by
  rw [Event.announces]
  by_cases hwell : WellFormed p
  · rw [alArpInput_wellFormed hwell]
    by_cases howns : Owns (vports p.port) (arpSip p)
    · rw [if_pos ((vportHasIp_iff _ _).mpr howns), if_neg (fun h => h.2.2 howns), Option.elim_none]
    · rw [if_neg (fun h => howns ((vportHasIp_iff _ _).mp h)), etharpUpdateArpEntry]
      by_cases hzero : arpSip p = 0
      · rw [if_pos hzero, if_neg (fun h => h.2.1 hzero), Option.elim_none]
      · rw [if_neg hzero, if_pos ⟨hwell, hzero, howns⟩, Option.elim_some]
  · rw [alArpInput_malformed hwell, if_neg (fun h => hwell h.1), Option.elim_none]

end Input

structure Follows (s : Neighbours) (l : List (Announcement 32)) (l6 : List (Announcement 128)) :
    Prop where
  arp : Buckets.Sound Entry.ipaddr arpKey s.arp
  ndp : Buckets.Sound Entry.ipaddr ndpKey s.ndp
  latest : ∀ addr, searchEntry arpKey s.arp addr = latest l addr
  latest6 : ∀ addr, searchEntry ndpKey s.ndp addr = Arp.latest l6 addr

theorem latest_append {w : ℕ} (l : List (Announcement w)) (a : Announcement w) (addr : BitVec w) :
    latest (l ++ [a]) addr = if addr = a.ipaddr then some (a.portid, a.haddr) else latest l addr := by
  rw [latest, List.reverse_append, List.reverse_singleton, List.singleton_append, List.find?_cons]
  by_cases h : addr = a.ipaddr
  · subst h
    simp
  · simp [h, beq_eq_false_iff_ne.mpr (Ne.symm h), latest]

variable {l6 : List (Announcement 128)} {l : List (Announcement 32)} {s : Neighbours}

theorem Follows.arpAdd (h : Follows s l l6) (a : Announcement 32) :
    Follows { s with arp := (arpAddEntry s.arp true a.ipaddr a.haddr a.portid).2 } (l ++ [a]) l6 := by
  refine ⟨sound_addEntry h.arp, h.ndp, fun addr => ?_, h.latest6⟩
  rw [latest_append, ← h.latest]
  exact searchEntry_addEntry addr

theorem Follows.ndpAdd (h : Follows s l l6) (a : Announcement 128) :
    Follows { s with ndp := (ndpAddEntry s.ndp true a.ipaddr a.haddr a.portid).2 } l (l6 ++ [a]) := by
  refine ⟨h.arp, sound_addEntry h.ndp, h.latest, fun addr => ?_⟩
  rw [latest_append, ← h.latest6]
  exact searchEntry_addEntry addr

theorem Follows.step (h : Follows s l l6) (e : Event) :
    Follows (step s e) (l ++ e.announces.toList) (l6 ++ e.announces6.toList) := by
  cases e with
  | input vports p =>
    rw [Arp.step, alArpInput_eq, Event.announces6, Option.toList_none, List.append_nil]
    cases (Event.input vports p).announces with
    | none => simpa using h
    | some a => exact h.arpAdd a
  | arpAdd ipaddr haddr portid =>
    rw [Event.announces6, Option.toList_none, List.append_nil]
    exact h.arpAdd ⟨ipaddr, haddr, portid⟩
  | ndpAdd ipaddr haddr portid =>
    rw [Event.announces, Option.toList_none, List.append_nil]
    exact h.ndpAdd ⟨ipaddr, haddr, portid⟩

theorem Follows.run (h : Follows s l l6) (events : List Event) :
    Follows (events.foldl Arp.step s) (l ++ events.filterMap Event.announces)
      (l6 ++ events.filterMap Event.announces6) := by
  induction events generalizing s l l6 with
  | nil => simpa using h
  | cons e events ih =>
    have hrest := ih (h.step e)
    rw [List.append_assoc, List.append_assoc] at hrest
    have hcons : ∀ {β : Type} (f : Event → Option β),
        (f e).toList ++ events.filterMap f = (e :: events).filterMap f := by
      intro β f
      cases he : f e <;> simp [he]
    rwa [hcons, hcons] at hrest

theorem Follows.init : Follows arpInit [] [] :=
  ⟨.empty, .empty, fun _ => rfl, fun _ => rfl⟩

theorem mem_entries_input {t : Table 32} {vports : UInt8 → Vport} {p : Mbuf} {e : Entry 32}
    (h : e.ipaddr = 0 ∨ Owns (vports p.port) e.ipaddr) :
    e ∈ entries (alArpInput t true vports p).2 ↔ e ∈ entries t := by
  rw [alArpInput_eq, Event.announces]
  split
  · rename_i haccept
    have hne : e.ipaddr ≠ arpSip p := by
      rcases h with hzero | howns
      · exact fun heq => haccept.2.1 (heq.symm.trans hzero)
      · exact fun heq => haccept.2.2 (heq ▸ howns)
    exact mem_addEntry hne
  · rfl

/-- The tables have one entry for an address at most, searches find what was announced last, and
the next packet touches only what it may. -/
theorem neighbours_current (events : List Event) :
    let s := events.foldl step arpInit
    ((entries s.arp).map Entry.ipaddr).Nodup ∧ ((entries s.ndp).map Entry.ipaddr).Nodup ∧
      (∀ addr dev lip rip, (arpSearch s.arp addr dev true lip rip).1 =
        latest (events.filterMap Event.announces) addr) ∧
      (∀ addr, ndpSearch s.ndp addr = latest (events.filterMap Event.announces6) addr) ∧
      ∀ vports p e, e.ipaddr = 0 ∨ Owns (vports p.port) e.ipaddr →
        (e ∈ entries (alArpInput s.arp true vports p).2 ↔ e ∈ entries s.arp) := by
  intro s
  have hfollows : Follows s _ _ := Follows.init.run events
  rw [List.nil_append, List.nil_append] at hfollows
  refine ⟨nodup_entries hfollows.arp, nodup_entries hfollows.ndp, ?_, hfollows.latest6,
    fun vports p e => mem_entries_input⟩
  intro addr dev lip rip
  rw [← hfollows.latest, arpSearch]
  cases searchEntry arpKey s.arp addr <;> rfl

theorem moved_neighbour_current :
    let s := [Event.arpAdd 7 1 1, .arpAdd 0 9 3, .arpAdd 7 2 4].foldl step arpInit
    (arpSearch s.arp 7 none true ⟨0, 0⟩ ⟨0, 0⟩).1 = some (4, 2) ∧
      ∀ vports p, (newEntry 0 9 3 ∈ entries (alArpInput s.arp true vports p).2 ↔
        newEntry 0 9 3 ∈ entries s.arp) := by
  obtain ⟨-, -, hsearch, -, hkept⟩ :=
    neighbours_current [Event.arpAdd 7 1 1, .arpAdd 0 9 3, .arpAdd 7 2 4]
  exact ⟨hsearch 7 none ⟨0, 0⟩ ⟨0, 0⟩, fun vports p => hkept vports p _ (.inl rfl)⟩

end Aware.Arp
