import Aware.Service.Alone

/-!
# A failed set-up

When `al_service` gives up it frees both sessions, and freeing a session deletes the first entry
with the fields of the session. The client session has the fields of the packet by then; the
upstream one may still have fields of its last use.
-/
namespace Aware.Service
open Aware.Filter Aware.Member Aware.Sessions

section Fields
variable {ι : Type} {s s' : Session ι}

def portless (sys : System) (sh : Shared ι) (s : Session ι) : Option (Session ι) :=
  match (alAlocateNewPort sys sh.ports sh.portStart s).2 with
  | none => some s
  | some _ => none

def stranded (sys : System) (sh : Shared ι) (f : Family) (margs : AlMargs) (oif : UInt8)
    (s : Session ι) : Option (Session ι) :=
  let s := setMember f margs s
  match vportSelectLocalIp (sys.vports oif) f s.remoteAddr with
  | none => some s
  | some ip => portless sys sh { s with localAddr := ip }

def leftover (sys : System) (stk : Stack) (sh : Shared ι) (f : AlFargs) (pkt : Packet) (u : ι) :
    Option (Session ι) :=
  let s := { sh.heap u with proto := 0 }
  match chooseMember sys stk f with
  | some (some margs) =>
    match routeTo sys stk.nexthop margs.addr with
    | none => some s
    | some (_, oif) =>
      if f.ftype = fltSimpleTrans then
        stranded sys sh pkt.family margs oif { s with inType := pkt.inType, proto := pkt.proto }
      else none
  | _ => some s

/-- The keys that the sessions have when they are freed, but for the key of an entry that was
made for one of them. -/
def strayKeys (sys : System) (stk : Stack) (sh : Shared ι) (f : AlFargs) (pkt : Packet) : List Key :=
  if f.ftype = fltGslb then []
  else
    match sh.pool with
    | [] => []
    | [c] => [({ sh.heap c with proto := 0 } : Session ι).key]
    | _ :: u :: _ => pkt.key :: (leftover sys stk sh f pkt u).toList.map Session.key

def Bound.Leaves (b : Bound ι) : Option (Session ι) → Prop
  | none => b.entered = true
  | some left => b.entered = false ∧ SameFields b.session left

theorem alocate_leaves (sys : System) (thread : UInt8) (sh : Shared ι) (h : SameFields s s') :
    (alAlocateNewPortWithSession sys thread sh.ports sh.portStart s).Leaves (portless sys sh s') := by
  rw [alAlocateNewPortWithSession, portless, h.alocate]
  cases alAlocateNewPort sys sh.ports sh.portStart s' with
  | mk portStart lport =>
    cases lport with
    | none => exact ⟨rfl, h⟩
    | some lport => rfl

theorem SameFields.setMember (h : SameFields s s') (f : Family) (margs : AlMargs) :
    SameFields (setMember f margs s) (setMember f margs s') :=
  ⟨h.inType, h.proto, h.localAddr, congrArg (Ipcs.assign f · _) h.remoteAddr, h.localPort, rfl⟩

theorem simpleTrans_leaves (sys : System) (thread : UInt8) (sh : Shared ι) (f : Family)
    (tgt : Target) (h : SameFields s s') :
    (simpleTrans sys thread sh.ports sh.portStart s f tgt).Leaves
      (stranded sys sh f tgt.margs tgt.oif s') := by
  have hmember := h.setMember f tgt.margs
  simp only [simpleTrans, stranded, hmember.remoteAddr]
  cases vportSelectLocalIp (sys.vports tgt.oif) f (Service.setMember f tgt.margs s').remoteAddr with
  | none => exact ⟨rfl, hmember⟩
  | some ip =>
    exact alocate_leaves sys thread sh
      ⟨hmember.inType, hmember.proto, rfl, rfl, hmember.localPort, hmember.remotePort⟩

theorem bindRemote_leaves (sys : System) (thread : UInt8) (sh : Shared ι) {f : AlFargs}
    (pkt : Packet) (tgt : Target) (h : SameFields s s') (hf : s.ftype = f.ftype) :
    (bindRemote sys thread sh.ports sh.portStart s pkt tgt).Leaves
      (if f.ftype = fltSimpleTrans then
        stranded sys sh pkt.family tgt.margs tgt.oif
          { s' with inType := pkt.inType, proto := pkt.proto }
      else none) := by
  simp only [bindRemote, hf]
  split
  · exact simpleTrans_leaves sys thread sh pkt.family tgt
      ⟨rfl, rfl, h.localAddr, h.remoteAddr, h.localPort, h.remotePort⟩
  · rfl

end Fields

section Rollback
variable {ι : Type} {c u : ι} {sh sh' : Shared ι} {f : AlFargs} {pkt : Packet}

theorem ports_free_free (sh : Shared ι) (c u : ι) :
    ((sh.free c).free u).ports = (sh.ports.del (sh.heap c).key).del (sh.heap u).key := by
  simp only [Shared.free, alSessionFree_eq]

def rolledBack (ports : Ports) (pkt : Packet) (left : Option (Session ι)) : Ports :=
  (pkt.key :: left.toList.map Session.key).foldl Ports.del ports

theorem Opened.frees (h : Opened sh sh' c u f pkt) :
    ((sh'.free c).free u).ports =
      rolledBack sh.ports pkt (some { sh.heap u with proto := 0 }) := by
  rw [ports_free_free, h.ports, h.client, h.fields.key]
  rfl

theorem Bound.frees {b : Bound ι} {thread : UInt8} {ports : Ports} {s : Session ι}
    {left : Option (Session ι)} (hfits : b.Fits ports thread s pkt) (hleft : b.Leaves left) :
    (b.ports.del pkt.key).del b.session.key = rolledBack ports pkt left := by
  cases left with
  | none =>
    rw [hfits.entry hleft, Ports.del_del_insert]
    rfl
  | some left =>
    rw [hfits.failed hleft.1, hleft.2.key]
    rfl

variable [DecidableEq ι]

theorem Opened.bind (h : Opened sh sh' c u f pkt) (hne : u ≠ c) (sys : System) (thread : UInt8)
    (tgt : Target) :
    ((((sh'.bind sys thread u pkt tgt).2).free c).free u).ports = rolledBack sh.ports pkt
      (if f.ftype = fltSimpleTrans then
        stranded sys sh pkt.family tgt.margs tgt.oif
          { sh.heap u with inType := pkt.inType, proto := pkt.proto }
      else none) := by
  have hleft := bindRemote_leaves sys thread sh pkt tgt h.fields h.ftype
  have hfits := bindRemote_fits sys thread sh.ports sh.portStart (sh'.heap u) pkt tgt
  rw [ports_free_free]
  simp only [Shared.bind, Function.update_self, Function.update_of_ne hne.symm, h.client, h.ports,
    h.portStart]
  exact Bound.frees hfits hleft

theorem alService_gaveUp {sys : System} {stk : Stack} {thread : UInt8} {pool : List ι}
    {table table' : List (List ι)} (hpool : sh.pool = c :: u :: pool) (hne : u ≠ c)
    (hf : f.ftype ≠ fltGslb)
    (h : alService sys stk thread f pkt sh table = some (none, sh', table')) :
    table' = table ∧ sh'.ports = rolledBack sh.ports pkt (leftover sys stk sh f pkt u) := by
  have hopened : Opened sh (({ sh with pool }.openClient c f).openUpstream sys c u f pkt) c u f pkt := by
    obtain ⟨hports, hstart, hclient, hfields, hftype⟩ :=
      opened_openUpstream hne sys { sh with pool } f pkt
    exact ⟨hports, hstart, hclient, hfields, hftype⟩
  simp only [alService, hf, if_false, hpool, Shared.connect] at h
  generalize ({ sh with pool }.openClient c f).openUpstream sys c u f pkt = sh₁ at hopened h
  split at h
  · cases h
  · rename_i hmember
    cases h
    rw [leftover, hmember]
    exact ⟨rfl, hopened.frees⟩
  · rename_i margs hmember
    split at h
    · rename_i hroute
      have hleft : leftover sys stk sh f pkt u = some { sh.heap u with proto := 0 } := by
        simp only [leftover, hmember, hroute]
      cases h
      rw [hleft]
      exact ⟨rfl, (hopened.adopt hne).frees⟩
    · rename_i nexthop oif hroute
      have hfrees := (hopened.adopt hne).bind hne sys thread ⟨margs, nexthop, oif⟩
      have hleft : leftover sys stk sh f pkt u = if f.ftype = fltSimpleTrans then
          stranded sys sh pkt.family margs oif
            { sh.heap u with proto := pkt.proto, inType := pkt.inType } else none := by
        simp only [leftover, hmember, hroute]
      rw [hleft]
      split at h
      · rename_i hbind
        cases h
        rw [hbind] at hfrees
        exact ⟨rfl, hfrees⟩
      · rename_i hbind
        rw [hbind] at hfrees
        simp only [Shared.complete] at h
        split at h
        · cases h
          exact ⟨rfl, hfrees⟩
        · cases h

theorem alService_failed {sys : System} {stk : Stack} {thread : UInt8}
    {table table' : List (List ι)} (hnodup : sh.pool.Nodup)
    (h : alService sys stk thread f pkt sh table = some (none, sh', table')) :
    table' = table ∧ sh'.ports = (strayKeys sys stk sh f pkt).foldl Ports.del sh.ports := by
  by_cases hf : f.ftype = fltGslb
  · simp only [alService, hf, if_true] at h
    cases h
    exact ⟨rfl, by rw [strayKeys, if_pos hf]; rfl⟩
  · rw [strayKeys, if_neg hf]
    cases hpool : sh.pool with
    | nil =>
      simp only [alService, hf, if_false, hpool] at h
      cases h
      exact ⟨rfl, rfl⟩
    | cons c pool =>
      cases pool with
      | nil =>
        simp only [alService, hf, if_false, hpool] at h
        cases h
        refine ⟨rfl, ?_⟩
        simp only [Shared.free, Shared.openClient, Function.update_self, alSessionFree_eq]
        rfl
      | cons u pool =>
        rw [hpool] at hnodup
        have hne : u ≠ c := fun heq => (List.nodup_cons.mp hnodup).1 (heq ▸ List.mem_cons_self)
        exact alService_gaveUp hpool hne hf h

/-- A failed set-up leaves both tables as they were exactly when no entry has one of the stray
keys. -/
theorem failed_service_changes_nothing_iff {w : World ι} (hw : Reached w) {sys : System}
    {stk : Stack} {t : UInt8} {table' : List (List ι)}
    (h : alService sys stk t f pkt w.shared (w.table t) = some (none, sh', table')) :
    (sh'.ports = w.shared.ports ∧ table' = w.table t) ↔
      ∀ k ∈ strayKeys sys stk w.shared f pkt, ¬ w.shared.ports.Has k := by
  obtain ⟨htable, hports⟩ := alService_failed hw.sound.placed.once h
  rw [hports, and_iff_left htable]
  exact Ports.foldl_del_eq_self_iff

end Rollback

def fourObjects : World ℕ :=
  start (fun _ => blankSession) [1, 2, 3, 4] 0

def onePair : List (Event ℕ) :=
  serve addressless 0 (tcp4 10 1000 20 80) ⟨1, 1, fltNat⟩ 4

theorem reached_of_fourObjects {evs : List (Event ℕ)} {w : World ℕ}
    (h : evs.foldlM step fourObjects = some w) : Reached w :=
  ⟨_, _, _, evs, by decide, h⟩

theorem failed_service_without_neighbour :
    ∃ (w : World ℕ) (sh' : Shared ℕ) (table' : List (List ℕ)), Reached w ∧
      w.shared.ports.entries.length = 1 ∧
      alService { addressless with arp := fun _ => none } blankStack 0 ⟨1, 1, fltNat⟩
        (tcp4 11 1000 20 80) w.shared (w.table 0) = some (none, sh', table') ∧
      sh'.ports = w.shared.ports ∧ table' = w.table 0 := by
  have heval : ((onePair.foldlM step fourObjects).any fun w =>
      decide (w.shared.ports.entries.length = 1 ∧
        ∀ k ∈ strayKeys { addressless with arp := fun _ => none } blankStack w.shared
          ⟨1, 1, fltNat⟩ (tcp4 11 1000 20 80), ¬ w.shared.ports.Has k) &&
      (alService { addressless with arp := fun _ => none } blankStack 0 ⟨1, 1, fltNat⟩
        (tcp4 11 1000 20 80) w.shared (w.table 0)).any fun r => r.1.isNone) = true := by
    decide +kernel
  obtain ⟨w, hrun, hw⟩ := (Option.any_eq_true _ _).mp heval
  rw [Bool.and_eq_true, decide_eq_true_iff] at hw
  obtain ⟨⟨hlen, hkeys⟩, hcall⟩ := hw
  obtain ⟨⟨r, sh', table'⟩, hcall, hnone⟩ := (Option.any_eq_true _ _).mp hcall
  cases Option.isNone_iff_eq_none.mp hnone
  have hreached := reached_of_fourObjects hrun
  exact ⟨w, sh', table', hreached, hlen, hcall,
    (failed_service_changes_nothing_iff hreached hcall).mpr hkeys⟩

def pairAndStray : List (Event ℕ) :=
  onePair ++ serve addressless 0 (tcp4 30 1 10 1000) ⟨1, 9, fltNat⟩ 6

theorem failed_service_deletes_live_entry :
    ∃ (w : World ℕ) (sh' : Shared ℕ) (table' : List (List ℕ)), Reached w ∧
      alService addressless blankStack 0 ⟨1, 1, fltSimpleTrans⟩ (tcp4 40 5 50 80) w.shared
        (w.table 0) = some (none, sh', table') ∧
      w.shared.ports.entries = [(.v4 ⟨20, 10, 80, 1000, 6⟩, 0)] ∧
      sessionGet (w.table 0) w.shared.heap (.v4 ⟨20, 10, 80, 1000, 6⟩) = some 2 ∧
      sh'.ports.entries = [] := by
  have heval : ((pairAndStray.foldlM step fourObjects).any fun w =>
      decide (w.shared.ports.entries = [(.v4 ⟨20, 10, 80, 1000, 6⟩, 0)] ∧
        sessionGet (w.table 0) w.shared.heap (.v4 ⟨20, 10, 80, 1000, 6⟩) = some 2) &&
      (alService addressless blankStack 0 ⟨1, 1, fltSimpleTrans⟩ (tcp4 40 5 50 80) w.shared
        (w.table 0)).any fun r => r.1.isNone && decide (r.2.1.ports.entries = [])) = true := by
    decide +kernel
  obtain ⟨w, hrun, hw⟩ := (Option.any_eq_true _ _).mp heval
  rw [Bool.and_eq_true, decide_eq_true_iff] at hw
  obtain ⟨⟨hentries, hlive⟩, hcall⟩ := hw
  obtain ⟨⟨r, sh', table'⟩, hcall, hnone⟩ := (Option.any_eq_true _ _).mp hcall
  rw [Bool.and_eq_true, decide_eq_true_iff] at hnone
  cases Option.isNone_iff_eq_none.mp hnone.1
  exact ⟨w, sh', table', reached_of_fourObjects hrun, hcall, hentries, hlive, hnone.2⟩

end Aware.Service
