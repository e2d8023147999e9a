import Aware.Service.Model

/-!
# The keys of a pair

Which key each session of a pair has at the points where it is entered or freed.
-/
namespace Aware.Service
open Function Aware.Filter Aware.Member Aware.Sessions

/-- The 5-tuple of a packet, from the side of the receiver. -/
def Packet.key (pkt : Packet) : Key :=
  match pkt.family with
  | .inet => .v4 ⟨pkt.srcAddr.ipv4, pkt.dstAddr.ipv4, pkt.srcPort, pkt.dstPort, pkt.proto⟩
  | .inet6 => .v6 ⟨pkt.srcAddr.ipv6, pkt.dstAddr.ipv6, pkt.srcPort, pkt.dstPort, pkt.proto⟩

def Packet.answerKey (pkt : Packet) : Key :=
  match pkt.family with
  | .inet => .v4 ⟨pkt.dstAddr.ipv4, pkt.srcAddr.ipv4, pkt.dstPort, pkt.srcPort, pkt.proto⟩
  | .inet6 => .v6 ⟨pkt.dstAddr.ipv6, pkt.srcAddr.ipv6, pkt.dstPort, pkt.srcPort, pkt.proto⟩

section
variable {ι : Type}

theorem key_sessionInitLocal (sys : System) (s : Session ι) (pkt : Packet) :
    (sessionInitLocal sys s pkt).key = pkt.key := by
  obtain ⟨family, src, dst, proto, sport, dport, port, sHaddr, dHaddr⟩ := pkt
  cases family <;> rfl

theorem key_passThrough (thread : UInt8) (ports : Ports) (portStart : UInt16) (u : Session ι)
    (pkt : Packet) :
    (passThrough thread ports portStart { u with inType := pkt.inType, proto := pkt.proto }
      pkt).session.key = pkt.answerKey := by
  obtain ⟨family, src, dst, proto, sport, dport, port, sHaddr, dHaddr⟩ := pkt
  cases family <;> rfl

theorem not_taken_of_tryPorts {taken : UInt16 → Bool} {n : ℕ} {portStart lport : UInt16}
    (h : (tryPorts taken n portStart).2 = some lport) : taken lport = false := by
  induction n generalizing portStart with
  | zero => cases h
  | succ n ih =>
    simp only [tryPorts] at h
    split at h
    · exact ih h
    · rename_i hfree
      cases h
      simpa using hfree

theorem not_has_of_not_used {ports : Ports} {s : Session ι} {lport : UInt16}
    (h : portUsed ports s lport = false) :
    ¬ ports.Has ({ s with localPort := lport } : Session ι).key := by
  cases hin : s.inType with
  | true =>
    simp only [portUsed, hin, if_true] at h
    simp only [Session.key, if_true]
    exact fun hhas => Bool.eq_false_iff.mp h (Ports.used_of_has_v6 hhas)
  | false =>
    simp only [portUsed, hin, Bool.false_eq_true, if_false] at h
    simp only [Session.key, Bool.false_eq_true, if_false]
    exact fun hhas => Bool.eq_false_iff.mp h (Ports.used_of_has_v4 hhas)

theorem not_has_of_alocate {sys : System} {ports : Ports} {portStart portStart' lport : UInt16}
    {s : Session ι} (h : alAlocateNewPort sys ports portStart s = (portStart', some lport)) :
    ¬ ports.Has ({ s with localPort := lport } : Session ι).key := by
  unfold alAlocateNewPort at h
  have htaken := not_taken_of_tryPorts (congrArg Prod.snd h)
  rw [Bool.or_eq_false_iff] at htaken
  exact not_has_of_not_used htaken.2

/-- Nothing is entered, or the session under the key it then has: a new key if it is translated,
else the key of the answers. -/
structure Bound.Fits (b : Bound ι) (ports : Ports) (thread : UInt8) (u : Session ι) (pkt : Packet) :
    Prop where
  isUps : b.session.isUps = u.isUps
  failed : b.entered = false → b.ports = ports
  entry : b.entered = true → b.ports = ports.insert b.session.key thread
  fresh : b.entered = true → u.ftype = fltSimpleTrans → ¬ ports.Has b.session.key
  answer : b.entered = true → u.ftype ≠ fltSimpleTrans → b.session.key = pkt.answerKey

theorem alocate_fits (sys : System) (thread : UInt8) (ports : Ports) (portStart : UInt16)
    {u : Session ι} (hu : u.ftype = fltSimpleTrans) (pkt : Packet) :
    (alAlocateNewPortWithSession sys thread ports portStart u).Fits ports thread u pkt := by
  simp only [alAlocateNewPortWithSession]
  split
  · exact ⟨rfl, fun _ => rfl, by simp, by simp, by simp⟩
  · rename_i halloc
    have hfree := not_has_of_alocate halloc
    exact ⟨rfl, by simp, fun _ => alPortInsert_eq _ _ _, fun _ _ => hfree,
      fun _ hne => absurd hu hne⟩

theorem simpleTrans_fits (sys : System) (thread : UInt8) (ports : Ports) (portStart : UInt16)
    {u : Session ι} (hu : u.ftype = fltSimpleTrans) (pkt : Packet) (tgt : Target) :
    (simpleTrans sys thread ports portStart u pkt.family tgt).Fits ports thread u pkt := by
  simp only [simpleTrans]
  split
  · exact ⟨rfl, fun _ => rfl, by simp, by simp, by simp⟩
  · rename_i ip _
    obtain ⟨hups, hfailed, hentry, hfresh, hanswer⟩ := alocate_fits sys thread ports portStart
      (u := { setMember pkt.family tgt.margs u with localAddr := ip }) hu pkt
    exact ⟨hups, hfailed, hentry, hfresh, hanswer⟩

theorem bindRemote_fits (sys : System) (thread : UInt8) (ports : Ports) (portStart : UInt16)
    (u : Session ι) (pkt : Packet) (tgt : Target) :
    (bindRemote sys thread ports portStart u pkt tgt).Fits ports thread u pkt := by
  by_cases hu : u.ftype = fltSimpleTrans
  · have hfits := simpleTrans_fits sys thread ports portStart
      (u := { u with inType := pkt.inType, proto := pkt.proto }) hu pkt tgt
    simp only [bindRemote]
    rw [if_pos hu]
    exact ⟨hfits.isUps, hfits.failed, hfits.entry, hfits.fresh, hfits.answer⟩
  · simp only [bindRemote, hu, if_false]
    exact ⟨rfl, fun h => (Bool.noConfusion h), fun _ => alPortInsert_eq _ _ _,
      fun _ h => absurd h hu, fun _ _ => key_passThrough _ _ _ _ _⟩

end

section Opened
variable {ι : Type} {s s' : Session ι} {c u : ι} {sh sh' : Shared ι} {f : AlFargs} {pkt : Packet}

structure SameFields (s s' : Session ι) : Prop where
  inType : s.inType = s'.inType
  proto : s.proto = s'.proto
  localAddr : s.localAddr = s'.localAddr
  remoteAddr : s.remoteAddr = s'.remoteAddr
  localPort : s.localPort = s'.localPort
  remotePort : s.remotePort = s'.remotePort

theorem SameFields.key (h : SameFields s s') : s.key = s'.key := by
  simp only [Session.key, Session.tuple4, Session.tuple6, h.inType, h.proto, h.localAddr,
    h.remoteAddr, h.localPort, h.remotePort]

theorem SameFields.alocate (h : SameFields s s') (sys : System) (ports : Ports)
    (portStart : UInt16) :
    alAlocateNewPort sys ports portStart s = alAlocateNewPort sys ports portStart s' := by
  simp only [alAlocateNewPort, portUsed, Session.tuple4, Session.tuple6, h.inType, h.proto,
    h.localAddr, h.remoteAddr, h.localPort, h.remotePort]

structure Opened (sh sh' : Shared ι) (c u : ι) (f : AlFargs) (pkt : Packet) : Prop where
  ports : sh'.ports = sh.ports
  portStart : sh'.portStart = sh.portStart
  client : (sh'.heap c).key = pkt.key
  fields : SameFields (sh'.heap u) { sh.heap u with proto := 0 }
  ftype : (sh'.heap u).ftype = f.ftype

variable [DecidableEq ι]

theorem opened_openUpstream (hne : u ≠ c) (sys : System) (sh : Shared ι) (f : AlFargs)
    (pkt : Packet) :
    Opened sh ((sh.openClient c f).openUpstream sys c u f pkt) c u f pkt := by
  have hu : ((sh.openClient c f).openUpstream sys c u f pkt).heap u =
      sessionMemInit { alSessionCreate (sh.heap u) with ftype := f.ftype, fid := f.fid } true := by
    simp only [Shared.openUpstream, Shared.openClient, update_of_ne hne,
      update_self]
  refine ⟨rfl, rfl, ?_, ?_, ?_⟩
  · simp only [Shared.openUpstream, update_self, key_sessionInitLocal]
  · rw [hu]
    exact ⟨rfl, rfl, rfl, rfl, rfl, rfl⟩
  · rw [hu]
    rfl

theorem Opened.adopt (h : Opened sh sh' c u f pkt) (hne : u ≠ c) :
    Opened sh (sh'.adopt c u) c u f pkt := by
  have hu : (sh'.adopt c u).heap u = { sh'.heap u with mid := (sh'.heap c).mid } :=
    update_self ..
  refine ⟨h.ports, h.portStart, ?_, ?_, ?_⟩
  · simp only [Shared.adopt, update_of_ne hne.symm, h.client]
  · rw [hu]
    exact ⟨h.fields.inType, h.fields.proto, h.fields.localAddr, h.fields.remoteAddr,
      h.fields.localPort, h.fields.remotePort⟩
  · rw [hu]
    exact h.ftype

end Opened

end Aware.Service
