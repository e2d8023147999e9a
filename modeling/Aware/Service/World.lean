import Aware.Lib.Places
import Aware.Lib.Runs
import Aware.Service.Bind
import Aware.Session.Timeout

/-!
# Threads

Every worker thread has a session table and goes through `al_service` and `al_session_timeout`
in steps; a step makes at most one access to the port table. The steps of the threads come in any
order.
-/
namespace Aware.Service
open Function Aware.Filter Aware.Member Aware.Sessions

/-- How far a thread has come. `freeing` holds the objects still to be freed, flagged if they
have entered the port table (which the program does not keep). -/
inductive Phase (ι : Type) where
  | idle
  | started (f : AlFargs) (pkt : Packet)
  | opened (f : AlFargs) (pkt : Packet) (c : ι)
  | paired (f : AlFargs) (pkt : Packet) (c u : ι)
  | entered (f : AlFargs) (pkt : Packet) (c u : ι) (tgt : Target)
  | freeing (xs : List (ι × Bool))

structure World (ι : Type) where
  shared : Shared ι
  table : UInt8 → List (List ι)
  phase : UInt8 → Phase ι

/-- The key that the input functions look up in the table of the thread: `al_ipv6_input` hands
the source port over twice. -/
def Packet.inputKey (pkt : Packet) : Key :=
  match pkt.family with
  | .inet => pkt.key
  | .inet6 => .v6 ⟨pkt.srcAddr.ipv6, pkt.dstAddr.ipv6, pkt.srcPort, pkt.srcPort, pkt.proto⟩

section Model
variable {ι : Type}

def World.put (w : World ι) (t : UInt8) (sh : Shared ι) (ph : Phase ι) (table : List (List ι)) :
    World ι :=
  ⟨sh, update w.table t table, update w.phase t ph⟩

def World.move (w : World ι) (t : UInt8) (sh : Shared ι) (ph : Phase ι) : World ι :=
  w.put t sh ph (w.table t)

def addPair (table : List (List ι)) (heap : ι → Session ι) (c u : ι) : List (List ι) :=
  alSessionAdd (alSessionAdd table heap c) heap u

variable [DecidableEq ι]

/-- `al_ipv4_input` and `al_ipv6_input` on a packet that hits the filter `f`. `al_process` keeps
a session that is found alive. -/
def World.receive (w : World ι) (t : UInt8) (pkt : Packet) (fromNic : Bool) (f : AlFargs) :
    World ι :=
  match w.phase t with
  | .idle =>
    match sessionGet (w.table t) w.shared.heap pkt.inputKey with
    | some x =>
      match pkt.family with
      | .inet =>
        w.move t { w.shared with
          heap := update w.shared.heap x
            { w.shared.heap x with stout := sessionIdleTimeout } } .idle
      | .inet6 => w
    | none =>
      if fromNic && (w.shared.ports.whichThread pkt.key).isSome || f.ftype = fltGslb then w
      else w.move t w.shared (.started f pkt)
  | _ => w

def World.advance (w : World ι) (t : UInt8) (sys : System) (stk : Stack) : Option (World ι) :=
  match w.phase t with
  | .idle => some w
  | .started f pkt =>
    match w.shared.pool with
    | [] => some (w.move t w.shared .idle)
    | c :: pool =>
      some (w.move t ({ w.shared with pool }.openClient c f) (.opened f pkt c))
  | .opened f pkt c =>
    match w.shared.pool with
    | [] => some (w.move t w.shared (.freeing [(c, false)]))
    | u :: pool =>
      some (w.move t ({ w.shared with pool }.openUpstream sys c u f pkt) (.paired f pkt c u))
  | .paired f pkt c u =>
    match chooseMember sys stk f with
    | none => none
    | some none => some (w.move t w.shared (.freeing [(c, false), (u, false)]))
    | some (some margs) =>
      let sh := w.shared.adopt c u
      match routeTo sys stk.nexthop margs.addr with
      | none => some (w.move t sh (.freeing [(c, false), (u, false)]))
      | some (nexthop, oif) =>
        match sh.bind sys t u pkt ⟨margs, nexthop, oif⟩ with
        | (false, sh) => some (w.move t sh (.freeing [(c, false), (u, false)]))
        | (true, sh) => some (w.move t sh (.entered f pkt c u ⟨margs, nexthop, oif⟩))
  | .entered f pkt c u tgt =>
    match resolve sys (w.shared.heap u) pkt.family tgt with
    | none => some (w.move t w.shared (.freeing [(c, false), (u, true)]))
    | some up =>
      let sh := w.shared.pair c u up f
      some (w.put t sh .idle (addPair (w.table t) sh.heap c u))
  | .freeing [] => some (w.move t w.shared .idle)
  | .freeing ((x, _) :: xs) => some (w.move t (w.shared.free x) (.freeing xs))

/-- `al_session_timeout`: the sweep unlinks the sessions, which are then freed one by one. `none`
is a sweep that goes on to freed memory. -/
def World.timeout (w : World ι) (t : UInt8) : Option (World ι) :=
  match w.phase t with
  | .idle =>
    (alSessionTimeout (w.table t) (Sweep.start (w.table t) w.shared.heap w.shared.ports)).map
      fun st =>
        w.put t { w.shared with heap := st.heap }
          (.freeing (st.freed.map fun x => (x, (st.heap x).isUps))) (st.table (w.table t))
  | _ => some w

/-- A step of a thread, or another order of the free objects: with caches for each core any
object may come out of the pool first. -/
inductive Event (ι : Type) where
  | receive (t : UInt8) (pkt : Packet) (fromNic : Bool) (f : AlFargs)
  | advance (t : UInt8) (sys : System) (stk : Stack)
  | timeout (t : UInt8)
  | reorder (pool : List ι)

def step (w : World ι) : Event ι → Option (World ι)
  | .receive t pkt fromNic f => some (w.receive t pkt fromNic f)
  | .advance t sys stk => w.advance t sys stk
  | .timeout t => w.timeout t
  | .reorder pool =>
    if pool.isPerm w.shared.pool then some { w with shared := { w.shared with pool } }
    else some w

def sessionBuckets : ℕ := 0x10000

def start (heap : ι → Session ι) (pool : List ι) (portStart : UInt16) : World ι :=
  ⟨⟨⟨[], []⟩, portStart, heap, pool⟩, fun _ => List.replicate sessionBuckets [], fun _ => .idle⟩

end Model

section Steps
variable {ι : Type}

theorem put_self (w : World ι) (t : UInt8) : w.put t w.shared (w.phase t) (w.table t) = w := by
  simp only [World.put, update_eq_self]

variable [DecidableEq ι]

inductive Advance (sys : System) (t : UInt8) (sh : Shared ι) (table : List (List ι)) :
    Phase ι → Shared ι → Phase ι → List (List ι) → Prop where
  | idle : Advance sys t sh table .idle sh .idle table
  | exhausted {f pkt} : Advance sys t sh table (.started f pkt) sh .idle table
  | openClient {f pkt c pool} (hpool : sh.pool = c :: pool) :
      Advance sys t sh table (.started f pkt) ({ sh with pool }.openClient c f)
        (.opened f pkt c) table
  | noUpstream {f pkt c} : Advance sys t sh table (.opened f pkt c) sh (.freeing [(c, false)]) table
  | openUpstream {f pkt c u pool} (hpool : sh.pool = u :: pool) :
      Advance sys t sh table (.opened f pkt c) ({ sh with pool }.openUpstream sys c u f pkt)
        (.paired f pkt c u) table
  | giveUp {f pkt c u sh'} (hports : sh'.ports = sh.ports) (hpool : sh'.pool = sh.pool)
      (hheap : ∀ x, x ≠ u → sh'.heap x = sh.heap x) :
      Advance sys t sh table (.paired f pkt c u) sh' (.freeing [(c, false), (u, false)]) table
  | enter {f pkt c u tgt sh'} (hports : sh'.ports = sh.ports.insert (sh'.heap u).key t)
      (hpool : sh'.pool = sh.pool) (hheap : ∀ x, x ≠ u → sh'.heap x = sh.heap x)
      (hups : (sh'.heap u).isUps = (sh.heap u).isUps)
      (hfresh : (sh.heap u).ftype = fltSimpleTrans → ¬ sh.ports.Has (sh'.heap u).key)
      (hanswer : (sh.heap u).ftype ≠ fltSimpleTrans → (sh'.heap u).key = pkt.answerKey) :
      Advance sys t sh table (.paired f pkt c u) sh' (.entered f pkt c u tgt) table
  | unresolved {f pkt c u tgt} :
      Advance sys t sh table (.entered f pkt c u tgt) sh (.freeing [(c, false), (u, true)]) table
  | link {f pkt c u tgt up} (hup : resolve sys (sh.heap u) pkt.family tgt = some up) :
      Advance sys t sh table (.entered f pkt c u tgt) (sh.pair c u up f) .idle
        (addPair table (sh.pair c u up f).heap c u)
  | done : Advance sys t sh table (.freeing []) sh .idle table
  | free {x b xs} : Advance sys t sh table (.freeing ((x, b) :: xs)) (sh.free x) (.freeing xs) table

variable {t : UInt8} {sys : System}

theorem Advance.bound {sh sh' : Shared ι} {table : List (List ι)}
    {f : AlFargs} {pkt : Packet} {c u : ι} {tgt : Target} {mid : UInt32} {b : Bound ι}
    (hfits : b.Fits sh.ports t { sh.heap u with mid } pkt) (hports : sh'.ports = b.ports)
    (hpool : sh'.pool = sh.pool) (hheap : sh'.heap = update sh.heap u b.session) :
    Advance sys t sh table (.paired f pkt c u) sh'
      (if b.entered then .entered f pkt c u tgt else .freeing [(c, false), (u, false)]) table := by
  have hself : sh'.heap u = b.session := by rw [hheap, update_self]
  have hother : ∀ x, x ≠ u → sh'.heap x = sh.heap x := by
    intro x hx
    rw [hheap, update_of_ne hx]
  cases hentered : b.entered with
  | true =>
    refine .enter ?_ hpool hother ?_ ?_ ?_
    · rw [hports, hself]
      exact hfits.entry hentered
    · rw [hself]
      exact hfits.isUps
    · rw [hself]
      exact hfits.fresh hentered
    · rw [hself]
      exact hfits.answer hentered
  | false => exact .giveUp (hports.trans (hfits.failed hentered)) hpool hother

theorem Advance.bind {sh sh' : Shared ι} {table : List (List ι)}
    {f : AlFargs} {pkt : Packet} {c u : ι} {tgt : Target} {b : Bool}
    (h : (sh.adopt c u).bind sys t u pkt tgt = (b, sh')) :
    Advance sys t sh table (.paired f pkt c u) sh'
      (if b then .entered f pkt c u tgt else .freeing [(c, false), (u, false)]) table := by
  have hself : (sh.adopt c u).heap u = { sh.heap u with mid := (sh.heap c).mid } :=
    update_self ..
  have hfits := bindRemote_fits sys t sh.ports sh.portStart ((sh.adopt c u).heap u) pkt tgt
  rw [hself] at hfits
  have hb := congrArg Prod.fst h
  have hsh := congrArg Prod.snd h
  simp only [Shared.bind, hself] at hb hsh
  rw [← hb, ← hsh]
  refine .bound hfits rfl rfl ?_
  simp only [Shared.adopt, update_idem]

theorem advance_spec {w w' : World ι} {stk : Stack} (h : w.advance t sys stk = some w') :
    ∃ sh ph table, Advance sys t w.shared (w.table t) (w.phase t) sh ph table ∧
      w' = w.put t sh ph table := by
  simp only [World.advance] at h
  split at h
  · rename_i hph
    cases h
    rw [hph]
    exact ⟨_, _, _, .idle, by rw [← hph, put_self]⟩
  · rename_i f pkt hph
    rw [hph]
    split at h
    · cases h
      exact ⟨_, _, _, .exhausted, rfl⟩
    · rename_i hpool
      cases h
      exact ⟨_, _, _, .openClient hpool, rfl⟩
  · rename_i f pkt c hph
    rw [hph]
    split at h
    · cases h
      exact ⟨_, _, _, .noUpstream, rfl⟩
    · rename_i hpool
      cases h
      exact ⟨_, _, _, .openUpstream hpool, rfl⟩
  · rename_i f pkt c u hph
    rw [hph]
    split at h
    · cases h
    · cases h
      exact ⟨_, _, _, .giveUp rfl rfl fun _ _ => rfl, rfl⟩
    · split at h
      · cases h
        exact ⟨w.shared.adopt c u, _, _,
          .giveUp rfl rfl fun x hx => update_of_ne hx _ _, rfl⟩
      · split at h
        · rename_i hbind
          cases h
          exact ⟨_, _, _, .bind hbind, rfl⟩
        · rename_i hbind
          cases h
          exact ⟨_, _, _, .bind hbind, rfl⟩
  · rename_i f pkt c u tgt hph
    rw [hph]
    split at h
    · cases h
      exact ⟨_, _, _, .unresolved, rfl⟩
    · rename_i hup
      cases h
      exact ⟨_, _, _, .link hup, rfl⟩
  · rename_i hph
    cases h
    exact ⟨_, _, _, hph ▸ .done, rfl⟩
  · rename_i x b xs hph
    cases h
    exact ⟨_, _, _, hph ▸ .free, rfl⟩

theorem receive_spec (w : World ι) (t : UInt8) (pkt : Packet) (fromNic : Bool) (f : AlFargs) :
    ∃ sh ph, w.receive t pkt fromNic f = w.put t sh ph (w.table t) ∧
      OnlyStout w.shared.heap sh.heap ∧ sh.ports = w.shared.ports ∧ sh.pool = w.shared.pool ∧
      (ph = w.phase t ∨ w.phase t = .idle ∧ ph = .started f pkt) := by
  have hstay : ∃ sh ph, w = w.put t sh ph (w.table t) ∧
      OnlyStout w.shared.heap sh.heap ∧ sh.ports = w.shared.ports ∧ sh.pool = w.shared.pool ∧
      (ph = w.phase t ∨ w.phase t = .idle ∧ ph = .started f pkt) :=
    ⟨_, _, (put_self w t).symm, .refl _, rfl, rfl, .inl rfl⟩
  simp only [World.receive]
  split
  · rename_i hidle
    split
    · rename_i x _
      split
      · refine ⟨_, _, rfl, fun y => ?_, rfl, rfl, .inl hidle.symm⟩
        rcases eq_or_ne y x with rfl | hy
        · exact ⟨_, update_self ..⟩
        · exact ⟨_, update_of_ne hy _ _⟩
      · exact hstay
    · split
      · exact hstay
      · exact ⟨_, _, rfl, .refl _, rfl, rfl, .inr ⟨hidle, rfl⟩⟩
  · exact hstay

theorem timeout_spec {w w' : World ι} (h : w.timeout t = some w') :
    w' = w ∨ ∃ st, w.phase t = .idle ∧
      alSessionTimeout (w.table t) (Sweep.start (w.table t) w.shared.heap w.shared.ports) = some st ∧
      w' = w.put t { w.shared with heap := st.heap }
        (.freeing (st.freed.map fun x => (x, (st.heap x).isUps))) (st.table (w.table t)) := by
  simp only [World.timeout] at h
  split at h
  · rename_i hidle
    obtain ⟨st, hst, rfl⟩ := Option.map_eq_some_iff.mp h
    exact .inr ⟨st, hidle, hst, rfl⟩
  · cases h
    exact .inl rfl

end Steps

end Aware.Service
