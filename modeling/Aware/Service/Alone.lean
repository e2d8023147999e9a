import Aware.Service.Placement

/-!
# A thread that is not interrupted

The steps of one thread, one after the other, are a call of `al_service`.
-/
namespace Aware.Service
open Function Aware.Filter Aware.Member Aware.Sessions

variable {ι : Type} [DecidableEq ι] {t : UInt8} {sys : System} {stk : Stack}

def Alone (t : UInt8) (sys : System) (stk : Stack) (w w' : World ι) : Prop :=
  ∃ n, (List.replicate n (.advance t sys stk : Event ι)).foldlM step w = some w'

theorem Alone.refl (w : World ι) : Alone t sys stk w w :=
  ⟨0, rfl⟩

theorem Alone.cons {w v w₂ : World ι} (hstep : w.advance t sys stk = some v)
    (h : Alone t sys stk v w₂) : Alone t sys stk w w₂ := by
  obtain ⟨n, hn⟩ := h
  refine ⟨n + 1, ?_⟩
  rw [List.replicate_succ, List.foldlM_cons, Option.bind_eq_bind, Option.bind_eq_some_iff]
  exact ⟨v, hstep, hn⟩

section
variable (w : World ι) {sh : Shared ι} {table : List (List ι)} {f : AlFargs} {pkt : Packet} {c u : ι}

theorem alone_freeing (xs : List (ι × Bool)) :
    Alone t sys stk (w.put t sh (.freeing xs) table)
      (w.put t (xs.foldl (fun sh x => sh.free x.1) sh) .idle table) := by
  induction xs generalizing sh with
  | nil =>
    refine .cons ?_ (.refl _)
    simp only [World.advance, World.put, World.move, update_self, update_idem,
      List.foldl_nil]
  | cons x xs ih =>
    refine .cons ?_ ih
    simp only [World.advance, World.put, World.move, update_self, update_idem]

variable {table' : List (List ι)} {r : Option (ι × ι)} {sh' : Shared ι}

theorem alone_entered (tgt : Target) (h : sh.complete sys f pkt c u tgt table = (r, sh', table')) :
    Alone t sys stk (w.put t sh (.entered f pkt c u tgt) table) (w.put t sh' .idle table') := by
  simp only [Shared.complete] at h
  split at h
  · rename_i hnone
    cases h
    refine .cons ?_ (alone_freeing w [(c, false), (u, true)])
    simp only [World.advance, World.put, World.move, update_self, update_idem, hnone]
  · rename_i hup
    cases h
    refine .cons ?_ (.refl _)
    simp only [World.advance, World.put, update_self, update_idem, hup]
    rfl

theorem alone_paired (h : sh.connect sys stk t f pkt c u table = some (r, sh', table')) :
    Alone t sys stk (w.put t sh (.paired f pkt c u) table) (w.put t sh' .idle table') := by
  simp only [Shared.connect] at h
  split at h
  · cases h
  · rename_i hmember
    cases h
    refine .cons ?_ (alone_freeing w [(c, false), (u, false)])
    simp only [World.advance, World.put, World.move, update_self, update_idem,
      hmember]
  · rename_i margs hmember
    split at h
    · rename_i hroute
      cases h
      refine .cons ?_ (alone_freeing w [(c, false), (u, false)])
      simp only [World.advance, World.put, World.move, update_self, update_idem,
        hmember, hroute]
    · rename_i nexthop oif hroute
      split at h
      · rename_i hbind
        cases h
        refine .cons ?_ (alone_freeing w [(c, false), (u, false)])
        simp only [World.advance, World.put, World.move, update_self, update_idem,
          hmember, hroute, hbind]
      · rename_i hbind
        refine .cons ?_ (alone_entered w ⟨margs, nexthop, oif⟩ (Option.some.inj h))
        simp only [World.advance, World.put, World.move, update_self, update_idem,
          hmember, hroute, hbind]

/-- A call of `al_service` is what a thread does that has started and is not interrupted. -/
theorem alone_of_alService (hf : f.ftype ≠ fltGslb)
    (h : alService sys stk t f pkt sh table = some (r, sh', table')) :
    Alone t sys stk (w.put t sh (.started f pkt) table) (w.put t sh' .idle table') := by
  cases hpool : sh.pool with
  | nil =>
    simp only [alService, hf, if_false, hpool] at h
    cases h
    refine .cons ?_ (.refl _)
    simp only [World.advance, World.put, World.move, update_self, update_idem,
      hpool]
  | cons c pool =>
    refine .cons (v := w.put t ({ sh with pool }.openClient c f) (.opened f pkt c) table) ?_ ?_
    · simp only [World.advance, World.put, World.move, update_self, update_idem,
        hpool]
    · cases pool with
      | nil =>
        simp only [alService, hf, if_false, hpool] at h
        cases h
        refine .cons ?_ (alone_freeing w [(c, false)])
        simp only [World.advance, World.put, World.move, update_self,
          update_idem, Shared.openClient]
      | cons u pool =>
        simp only [alService, hf, if_false, hpool] at h
        refine .cons ?_ (alone_paired w h)
        simp only [World.advance, World.put, World.move, update_self,
          update_idem, Shared.openClient]

end

theorem Reached.service {w : World ι} (hw : Reached w) {f : AlFargs} {pkt : Packet}
    {fromNic : Bool} {r : Option (ι × ι)} {sh' : Shared ι} {table' : List (List ι)}
    (hstart : w.receive t pkt fromNic f = w.move t w.shared (.started f pkt))
    (hf : f.ftype ≠ fltGslb)
    (h : alService sys stk t f pkt w.shared (w.table t) = some (r, sh', table')) :
    Reached (w.put t sh' .idle table') := by
  obtain ⟨heap, pool, portStart, evs, hpool, hrun⟩ := hw
  obtain ⟨n, hn⟩ := alone_of_alService w hf h
  refine ⟨heap, pool, portStart, evs ++ .receive t pkt fromNic f ::
    List.replicate n (.advance t sys stk), hpool, ?_⟩
  rw [List.foldlM_append, hrun]
  change (some (w.receive t pkt fromNic f)).bind
    (fun w => (List.replicate n (.advance t sys stk)).foldlM step w) = _
  rw [hstart]
  exact hn

def oneMember (addr : AlAddr) (port : UInt16) : Groups := fun key =>
  if key = alMakeKey 1 1 then
    (alGroupLoadMember (initChain zeroCluster) [(⟨1, htons port, 1, addr⟩, none)]).map
      fun chain => ⟨0, chain⟩
  else none

def addressless : System where
  groups := oneMember ⟨8, afInet, 20, 0⟩ 80
  routes := Router.run Router.onePort
    [.insert .inet 1 0 .any (some 0x0a000001) 1 7,
      .insert .inet6 2 0 .any (some 0x0a000001) 1 7]
  filters := alFilterInit
  vports _ := ⟨3, 0, [], []⟩
  arp _ := some (3, 0)
  ndp _ := none

def blankStack : Stack := ⟨blankMargs, ⟨0, 0⟩⟩

def blankSession : Session ℕ :=
  ⟨false, false, 0, false, 0, false, 0, 0, 0, ⟨0, 0⟩, ⟨0, 0⟩, 0, 0, 0, 0, 0, 0⟩

def tcp4 (src : BitVec 32) (srcPort : UInt16) (dst : BitVec 32) (dstPort : UInt16) : Packet :=
  ⟨.inet, ⟨src, 0⟩, ⟨dst, 0⟩, 6, srcPort, dstPort, 0, 0, 0⟩

def serve (sys : System) (t : UInt8) (pkt : Packet) (f : AlFargs) (n : ℕ) : List (Event ℕ) :=
  .receive t pkt false f :: List.replicate n (.advance t sys blankStack)

end Aware.Service
