import Aware.Lib.Runs
import Aware.Router

/-!
# Following the routes of the kernel

`proc_loop` reads a buffer of netlink messages and changes the routing tables by each of them. The
variables for the destination and the interface keep their values from one message to the next, and
have none at the beginning of a buffer.
-/
namespace Aware.Netlink
open Function Aware.Radix Aware.Router

/-- An attribute, with the bytes from its data on: four or sixteen of them are read as an
address, by the family of the message that uses them. -/
inductive Attr where
  | dst (data : BitVec 128)
  | gateway (data : BitVec 128)
  | oif (index : UInt32)
  | other
deriving DecidableEq, Repr

inductive Kind where
  | newroute
  | delroute
  | other
deriving DecidableEq, Repr

/-- `rtm_family` and `rtm_dst_len`, when the family is one of the two, and the attributes. -/
structure Message where
  kind : Kind
  target : Option ((f : Family) × Mask f.width)
  attrs : List Attr

def addrAt (f : Family) (data : BitVec 128) : BitVec f.width :=
  match f with
  | .inet => data.extractLsb' 96 32
  | .inet6 => data

/-- The locals of `proc_loop` that the attributes set. `dest` is `none` while the pointer has no
value. -/
structure Locals where
  dest : Option (BitVec 128)
  nexthop : Option (BitVec 128)
  oif : UInt32
deriving DecidableEq, Repr

def procAttr (l : Locals) : Attr → Locals
  | .dst data => { l with dest := some data }
  | .gateway data => { l with nexthop := some data }
  | .oif index => { l with oif := index }
  | .other => l

structure Loop where
  tables : Tables
  locals : Locals

section Masks

def tomaskIpv4 (len : ℕ) : BitVec 32 :=
  if len = 0 then 0 else BitVec.allOnes 32 <<< (32 - len)

def tomaskIpv6 (len : ℕ) : BitVec 128 :=
  (List.range 16).foldl (fun mask j =>
    let i := len - 8 * j
    (mask <<< 8) ||| (if 8 ≤ i then 0xff else if i = 0 then 0 else (0xff <<< (8 - i)) &&& 0xff)) 0

theorem tomaskIpv4_eq (mask : Mask 32) : tomaskIpv4 mask.len = mask.bits := by
  rw [tomaskIpv4, Mask.bits, BitStrings.leadingOnes]
  split
  · rename_i hlen
    rw [hlen]
    rfl
  · rfl

theorem tomaskIpv6_eq (mask : Mask 128) : tomaskIpv6 mask.len = mask.bits := by
  have hall : ∀ n : Fin 129, tomaskIpv6 n = BitStrings.leadingOnes (n : ℕ) := by decide +kernel
  exact hall ⟨mask.len, Nat.lt_succ_of_le mask.le⟩

end Masks

def dynamicTabl : UInt8 := 3

def gatewayTabl : UInt8 := 4

section Model
variable (nicId : UInt32 → Option UInt32) (ports : UInt32 → Option UInt8)

/-- One turn of the loop over a buffer. `none` is the use of the pointer without a value; `nicId`
is `al_get_nic_id`. -/
def procMessage (st : Loop) (m : Message) : Option Loop :=
  let l := m.attrs.foldl procAttr { st.locals with nexthop := none }
  match nicId l.oif, m.target with
  | some oifid, some ⟨f, mask⟩ =>
    match m.kind with
    | .newroute => l.dest.map fun dest =>
      let rtype := if l.nexthop.isSome then gatewayTabl else dynamicTabl
      ⟨(alRouterInsert ports st.tables f 0 (addrAt f dest) mask (l.nexthop.map (addrAt f)) rtype
        oifid).2, l⟩
    | .delroute => l.dest.map fun dest =>
      ⟨(alRouterDelete st.tables f (addrAt f dest) mask 0).2, l⟩
    | .other => some ⟨st.tables, l⟩
  | _, _ => some ⟨st.tables, l⟩

structure Buffer where
  oif : UInt32
  messages : List Message

def Buffer.locals (b : Buffer) : Locals := ⟨none, none, b.oif⟩

def procLoop (t : Tables) (b : Buffer) : Option Tables :=
  (b.messages.foldlM (procMessage nicId ports) ⟨t, b.locals⟩).map Loop.tables

end Model

namespace Attr

def asDst : Attr → Option (BitVec 128)
  | .dst data => some data
  | _ => none

def asGateway : Attr → Option (BitVec 128)
  | .gateway data => some data
  | _ => none

def asOif : Attr → Option UInt32
  | .oif index => some index
  | _ => none

def lastOf {α : Type} (g : Attr → Option α) (attrs : List Attr) : Option α :=
  (attrs.filterMap g).getLast?

theorem lastOf_cons {α : Type} (g : Attr → Option α) (a : Attr) (attrs : List Attr) :
    lastOf g (a :: attrs) = (lastOf g attrs <|> g a) := by
  rw [lastOf, lastOf, List.filterMap_cons]
  cases g a with
  | none => simp
  | some x =>
    rw [List.getLast?_cons]
    cases (attrs.filterMap g).getLast? <;> rfl

end Attr

namespace Message

def rtaDst (m : Message) : Option (BitVec 128) := Attr.lastOf Attr.asDst m.attrs

def rtaGateway (m : Message) : Option (BitVec 128) := Attr.lastOf Attr.asGateway m.attrs

def rtaOif (m : Message) : Option UInt32 := Attr.lastOf Attr.asOif m.attrs

def dest (m : Message) (f : Family) : BitVec f.width :=
  (m.rtaDst.map (addrAt f)).getD 0

def gateway (m : Message) (f : Family) : BitVec f.width :=
  (m.rtaGateway.map (addrAt f)).getD 0

def used (m : Message) (l : Locals) : Option (BitVec 128) :=
  m.rtaDst <|> l.dest

end Message

/-- The routes announced and not withdrawn since, by destination and mask, each with the gateway
and the interface of the announcement. -/
abbrev Announced :=
  (f : Family) → PrefixMap f.width (BitVec f.width × Option UInt8)

def Announced.set (a : Announced) (f : Family) (subnet : BitVec f.width) (mask : Mask f.width)
    (r : Option (BitVec f.width × Option UInt8)) : Announced :=
  update a f ((a f).set (subnet &&& mask.bits) mask.len r)

def Announced.apply (iface : UInt32 → Option UInt8) (a : Announced) (m : Message) : Announced :=
  match m.kind, m.target with
  | .newroute, some ⟨f, mask⟩ => a.set f (m.dest f) mask (some (m.gateway f, m.rtaOif.bind iface))
  | .delroute, some ⟨f, mask⟩ => a.set f (m.dest f) mask none
  | _, _ => a

inductive Event where
  | recv (l : Locals)
  | message (m : Message)

def Buffer.events (b : Buffer) : List Event :=
  .recv b.locals :: b.messages.map .message

structure Watch where
  loop : Loop
  announced : Announced

def Watch.start : Watch :=
  ⟨⟨alRouterInit, none, none, 0⟩, fun _ => PrefixMap.empty⟩

def hop {w : ℕ} (r : Route w) : BitVec w × Option UInt8 :=
  (r.nexthop, some r.oif)

def Holds (w : Watch) : Prop :=
  ∀ (f : Family) (k : BitVec f.width) (n : ℕ) (v : BitVec f.width × Option UInt8),
    w.announced f k n = some v ↔ ∃ r, (w.loop.tables f .main).Has ⟨k, n, r⟩ ∧ hop r = v

section Run
variable (nicId : UInt32 → Option UInt32) (ports : UInt32 → Option UInt8)

def iface (index : UInt32) : Option UInt8 :=
  (nicId index).bind ports

def step (w : Watch) : Event → Option Watch
  | .recv l => some { w with loop := ⟨w.loop.tables, l⟩ }
  | .message m => (procMessage nicId ports w.loop m).map fun loop =>
    ⟨loop, w.announced.apply (iface nicId ports) m⟩

def Message.Known (m : Message) : Prop :=
  ∀ index ∈ m.rtaOif, iface nicId ports index ≠ none

/-- The destination taken is the announcement's own and is new; or the table has the own one
already, alike, and refuses the one taken. -/
def Lands (w : Watch) (m : Message) (f : Family) (mask : Mask f.width) : Option (BitVec 128) → Prop
  | none => False
  | some data =>
    m.dest f &&& mask.bits = addrAt f data &&& mask.bits ∧
        w.announced f (m.dest f &&& mask.bits) mask.len = none ∨
      w.announced f (m.dest f &&& mask.bits) mask.len =
          some (m.gateway f, m.rtaOif.bind (iface nicId ports)) ∧
        w.announced f (addrAt f data &&& mask.bits) mask.len ≠ none

def Announces (w : Watch) (m : Message) (f : Family) (mask : Mask f.width) : Prop :=
  m.rtaOif ≠ none ∧ Lands nicId ports w m f mask (m.used w.loop.locals)

def Withdraws (w : Watch) (m : Message) (f : Family) (mask : Mask f.width) : Prop :=
  w.announced f (m.dest f &&& mask.bits) mask.len = none ∧
    (nicId (m.rtaOif.getD w.loop.locals.oif) = none ∨ m.used w.loop.locals ≠ none)

def Fits (w : Watch) : Event → Prop
  | .message ⟨.newroute, some ⟨f, mask⟩, attrs⟩ =>
    Announces nicId ports w ⟨.newroute, some ⟨f, mask⟩, attrs⟩ f mask
  | .message ⟨.delroute, some ⟨f, mask⟩, attrs⟩ =>
    Withdraws nicId w ⟨.delroute, some ⟨f, mask⟩, attrs⟩ f mask
  | _ => True

instance (w : Watch) (m : Message) (f : Family) (mask : Mask f.width) :
    (used : Option (BitVec 128)) → Decidable (Lands nicId ports w m f mask used)
  | none => .isFalse id
  | some _ => inferInstanceAs (Decidable (_ ∨ _))

instance (w : Watch) (m : Message) (f : Family) (mask : Mask f.width) :
    Decidable (Announces nicId ports w m f mask) :=
  inferInstanceAs (Decidable (_ ∧ _))

instance (w : Watch) (m : Message) (f : Family) (mask : Mask f.width) :
    Decidable (Withdraws nicId w m f mask) :=
  inferInstanceAs (Decidable (_ ∧ _))

instance (w : Watch) (e : Event) : Decidable (Fits nicId ports w e) :=
  match e with
  | .recv _ => .isTrue trivial
  | .message ⟨.newroute, none, _⟩ | .message ⟨.delroute, none, _⟩ | .message ⟨.other, _, _⟩ =>
    .isTrue trivial
  | .message ⟨.newroute, some ⟨f, mask⟩, attrs⟩ =>
    inferInstanceAs (Decidable (Announces nicId ports w ⟨_, _, attrs⟩ f mask))
  | .message ⟨.delroute, some ⟨f, mask⟩, attrs⟩ =>
    inferInstanceAs (Decidable (Withdraws nicId w ⟨_, _, attrs⟩ f mask))

end Run

section Facts
variable {nicId : UInt32 → Option UInt32} {ports : UInt32 → Option UInt8} {w w' : Watch} {m : Message}
  {live : Live}

theorem foldl_procAttr (attrs : List Attr) (l : Locals) :
    attrs.foldl procAttr l = ⟨Attr.lastOf Attr.asDst attrs <|> l.dest,
      Attr.lastOf Attr.asGateway attrs <|> l.nexthop, (Attr.lastOf Attr.asOif attrs).getD l.oif⟩ := by
  induction attrs generalizing l with
  | nil => rfl
  | cons a attrs ih =>
    rw [List.foldl_cons, ih, Attr.lastOf_cons, Attr.lastOf_cons, Attr.lastOf_cons]
    cases a with
    | dst data => simp [procAttr, Attr.asDst, Attr.asGateway, Attr.asOif]
    | gateway data => simp [procAttr, Attr.asDst, Attr.asGateway, Attr.asOif]
    | oif index =>
      simp only [procAttr, Attr.asDst, Attr.asGateway, Attr.asOif]
      cases Attr.lastOf Attr.asOif attrs <;> simp
    | other => simp [procAttr, Attr.asDst, Attr.asGateway, Attr.asOif]

theorem locals_after (l : Locals) (m : Message) :
    m.attrs.foldl procAttr { l with nexthop := none } =
      ⟨m.used l, m.rtaGateway, m.rtaOif.getD l.oif⟩ := by
  rw [foldl_procAttr]
  simp [Message.used, Message.rtaDst, Message.rtaGateway, Message.rtaOif]

def mainHops (live : Live) : Announced :=
  fun f k n => (live f .main k n).map hop

theorem holds_iff {t : Tables} {l : Locals} {a : Announced} (h : Tracks t live) :
    Holds ⟨⟨t, l⟩, a⟩ ↔ mainHops live = a := by
  have hhas : ∀ (f : Family) (k : BitVec f.width) (n : ℕ) (v : BitVec f.width × Option UInt8),
      (∃ r, (t f .main).Has ⟨k, n, r⟩ ∧ hop r = v) ↔ mainHops live f k n = some v := by
    intro f k n v
    rw [mainHops, Option.map_eq_some_iff]
    simp only [(h f .main).has]
  unfold Holds
  simp only [hhas]
  constructor
  · intro hall
    funext f k n
    exact Option.ext fun v => (hall f k n v).symm
  · intro heq f k n v
    rw [heq]

theorem mainHops_set_main (f : Family) (subnet : BitVec f.width) (mask : Mask f.width)
    (r : Option (Route f.width)) :
    mainHops (live.set f .main subnet mask r) = (mainHops live).set f subnet mask (r.map hop) := by
  funext f' k n
  rw [mainHops, Live.set, Announced.set]
  rcases eq_or_ne f' f with rfl | hf
  · rw [update_self, update_self, update_self, PrefixMap.set, PrefixMap.set]
    split <;> rfl
  · rw [update_of_ne hf, update_of_ne hf]
    rfl

theorem mainHops_set_policy (f : Family) (subnet : BitVec f.width) (mask : Mask f.width)
    (r : Option (Route f.width)) : mainHops (live.set f .policy subnet mask r) = mainHops live := by
  funext f' k n
  rw [mainHops, Live.set]
  rcases eq_or_ne f' f with rfl | hf
  · rw [update_self, update_of_ne (by decide)]
    rfl
  · rw [update_of_ne hf]
    rfl

variable {f : Family} {mask : Mask f.width}

theorem Announced.set_eq_self_iff {a : Announced} {subnet : BitVec f.width}
    {r : Option (BitVec f.width × Option UInt8)} :
    a.set f subnet mask r = a ↔ a f (subnet &&& mask.bits) mask.len = r := by
  rw [Announced.set, update_eq_self_iff, PrefixMap.set_eq_self_iff]

theorem mainHops_insert_iff (live : Live) (own subnet : BitVec f.width) (mask : Mask f.width)
    (nexthop : Option (BitVec f.width)) {rtype : UInt8} (hrtype : alRouter rtype = .main) {oifid : UInt32}
    {index : UInt8} (hport : ports oifid = some index) :
    mainHops (live.apply ports (.insert f 0 subnet mask nexthop rtype oifid)) =
        (mainHops live).set f own mask (some (nexthop.getD 0, some index)) ↔
      own &&& mask.bits = subnet &&& mask.bits ∧ mainHops live f (own &&& mask.bits) mask.len = none ∨
        mainHops live f (own &&& mask.bits) mask.len = some (nexthop.getD 0, some index) ∧
          mainHops live f (subnet &&& mask.bits) mask.len ≠ none := by
  have hadded : mainHops (live.apply ports (.insert f 0 subnet mask nexthop rtype oifid)) =
      update (mainHops live) f
        (if mainHops live f (subnet &&& mask.bits) mask.len = none then
          (mainHops live f).set (subnet &&& mask.bits) mask.len (some (nexthop.getD 0, some index))
        else mainHops live f) := by
    rw [Live.apply, hport, hrtype]
    cases hlive : live f .main (subnet &&& mask.bits) mask.len with
    | none =>
      have hfree : mainHops live f (subnet &&& mask.bits) mask.len = none := by rw [mainHops, hlive]; rfl
      rw [if_pos hfree]
      exact mainHops_set_main ..
    | some r =>
      have htaken : mainHops live f (subnet &&& mask.bits) mask.len ≠ none := by
        rw [mainHops, hlive]
        exact Option.some_ne_none _
      rw [if_neg htaken, update_eq_self]
  rw [hadded, Announced.set, (update_injective _ _).eq_iff, PrefixMap.add_eq_set_iff]

theorem procMessage_eq (st : Loop) (m : Message) :
    procMessage nicId ports st m =
      match nicId (m.rtaOif.getD st.locals.oif), m.target with
      | some oifid, some ⟨f, mask⟩ =>
        match m.kind with
        | .newroute => (m.used st.locals).map fun dest =>
          ⟨applyOp ports st.tables (.insert f 0 (addrAt f dest) mask (m.rtaGateway.map (addrAt f))
            (if m.rtaGateway.isSome then gatewayTabl else dynamicTabl) oifid),
            m.used st.locals, m.rtaGateway, m.rtaOif.getD st.locals.oif⟩
        | .delroute => (m.used st.locals).map fun dest =>
          ⟨applyOp ports st.tables (.delete f (addrAt f dest) mask 0),
            m.used st.locals, m.rtaGateway, m.rtaOif.getD st.locals.oif⟩
        | .other => some ⟨st.tables, m.used st.locals, m.rtaGateway, m.rtaOif.getD st.locals.oif⟩
      | _, _ => some ⟨st.tables, m.used st.locals, m.rtaGateway, m.rtaOif.getD st.locals.oif⟩ := by
  rw [procMessage, locals_after]
  rfl

theorem newroute_iff (htracks : Tracks w.loop.tables live) (hholds : Holds w)
    (hkind : m.kind = .newroute) (htarget : m.target = some ⟨f, mask⟩)
    (hknown : m.Known nicId ports) :
    (∃ w', step nicId ports w (.message m) = some w' ∧ Holds w') ↔ Announces nicId ports w m f mask := by
  have hmain := (holds_iff htracks).mp hholds
  have hspec : w.announced.apply (iface nicId ports) m =
      w.announced.set f (m.dest f) mask (some (m.gateway f, m.rtaOif.bind (iface nicId ports))) := by
    rw [Announced.apply, hkind, htarget]
  rw [Announces]
  cases hoif : m.rtaOif with
  | none =>
    -- a route in the table has an interface
    refine iff_of_false ?_ (fun h => h.1 rfl)
    rintro ⟨w', hw', hholds'⟩
    obtain ⟨loop, -, rfl⟩ := Option.map_eq_some_iff.mp hw'
    have hat : (w.announced.apply (iface nicId ports) m) f (m.dest f &&& mask.bits) mask.len =
        some (m.gateway f, none) := by
      rw [hspec, hoif, Announced.set, update_self, PrefixMap.set_self]
      rfl
    obtain ⟨r, -, hr⟩ := (hholds' f _ _ _).mp hat
    cases congrArg Prod.snd hr
  | some i =>
    obtain ⟨index, hindex⟩ := Option.ne_none_iff_exists'.mp (hknown i hoif)
    obtain ⟨oifid, hnic, hport⟩ := Option.bind_eq_some_iff.mp hindex
    rw [step, procMessage_eq, hoif, Option.getD_some, hnic, htarget, hkind, hspec, hoif,
      Option.bind_some, hindex]
    cases hused : m.used w.loop.locals with
    | none => simp [Lands]
    | some data =>
      have hrtype : alRouter (if m.rtaGateway.isSome then gatewayTabl else dynamicTabl) = .main := by
        split <;> rfl
      have hinsert := mainHops_insert_iff live (m.dest f) (addrAt f data) mask
        (m.rtaGateway.map (addrAt f)) hrtype hport
      rw [hmain] at hinsert
      simp only [Option.map_some, Option.some.injEq, exists_eq_left', ne_eq, reduceCtorEq,
        not_false_eq_true, true_and, Lands, hoif, Option.bind_some, hindex]
      exact (holds_iff (htracks.step _)).trans hinsert

theorem delroute_iff (htracks : Tracks w.loop.tables live) (hholds : Holds w)
    (hkind : m.kind = .delroute) (htarget : m.target = some ⟨f, mask⟩) :
    (∃ w', step nicId ports w (.message m) = some w' ∧ Holds w') ↔ Withdraws nicId w m f mask := by
  have hmain := (holds_iff htracks).mp hholds
  have hspec : w.announced.apply (iface nicId ports) m = w.announced.set f (m.dest f) mask none := by
    rw [Announced.apply, hkind, htarget]
  -- whatever the loop deletes, the main table is as it was
  have hsame : mainHops live = w.announced.set f (m.dest f) mask none ↔
      w.announced f (m.dest f &&& mask.bits) mask.len = none := by
    rw [hmain, eq_comm, Announced.set_eq_self_iff]
  rw [step, procMessage_eq, htarget, hspec, Withdraws, ← hsame]
  cases hnic : nicId (m.rtaOif.getD w.loop.locals.oif) with
  | none =>
    simp only [Option.map_some, Option.some.injEq, exists_eq_left', true_or, and_true]
    exact holds_iff htracks
  | some oifid =>
    rw [hkind]
    cases hused : m.used w.loop.locals with
    | none => simp
    | some data =>
      have hdelete : mainHops (live.apply ports (.delete f (addrAt f data) mask 0)) = mainHops live :=
        mainHops_set_policy ..
      simp only [Option.map_some, Option.some.injEq, exists_eq_left', ne_eq, reduceCtorEq,
        not_false_eq_true, or_true, and_true]
      rw [← hdelete]
      exact holds_iff (htracks.step _)

theorem step_idle (hholds : Holds w) (hidle : m.kind = .other ∨ m.target = none) :
    ∃ w', step nicId ports w (.message m) = some w' ∧ Holds w' := by
  have hproc : procMessage nicId ports w.loop m =
      some ⟨w.loop.tables, m.used w.loop.locals, m.rtaGateway, m.rtaOif.getD w.loop.locals.oif⟩ := by
    rw [procMessage_eq]
    rcases hidle with hkind | htarget
    · rw [hkind]
      split <;> rfl
    · rw [htarget]
      split
      · rename_i heq
        cases heq
      · rfl
  have hspec : w.announced.apply (iface nicId ports) m = w.announced := by
    rw [Announced.apply]
    rcases hidle with hkind | htarget
    · rw [hkind]
    · rw [htarget]
      cases m.kind <;> rfl
  rw [step, hproc, hspec]
  exact ⟨_, rfl, hholds⟩

theorem step_iff (htracks : Tracks w.loop.tables live) (hholds : Holds w) {e : Event}
    (hknown : ∀ m, e = .message m → m.Known nicId ports) :
    (∃ w', step nicId ports w e = some w' ∧ Holds w') ↔ Fits nicId ports w e := by
  cases e with
  | recv l => exact iff_of_true ⟨_, rfl, hholds⟩ trivial
  | message m =>
    obtain ⟨kind, target, attrs⟩ := m
    cases target with
    | none =>
      refine iff_of_true (step_idle hholds (.inr rfl)) ?_
      cases kind <;> trivial
    | some t =>
      obtain ⟨f, mask⟩ := t
      cases kind with
      | newroute => exact newroute_iff htracks hholds rfl rfl (hknown _ rfl)
      | delroute => exact delroute_iff htracks hholds rfl rfl
      | other => exact iff_of_true (step_idle hholds (.inl rfl)) trivial

theorem procMessage_tables {st st' : Loop} (h : procMessage nicId ports st m = some st') :
    st'.tables = st.tables ∨ ∃ op, st'.tables = applyOp ports st.tables op := by
  rw [procMessage_eq] at h
  split at h
  · split at h
    · obtain ⟨dest, -, rfl⟩ := Option.map_eq_some_iff.mp h
      exact .inr ⟨.insert .., rfl⟩
    · obtain ⟨dest, -, rfl⟩ := Option.map_eq_some_iff.mp h
      exact .inr ⟨.delete .., rfl⟩
    · cases h
      exact .inl rfl
  · cases h
    exact .inl rfl

theorem step_tracks {e : Event} (htracks : ∃ live, Tracks w.loop.tables live)
    (h : step nicId ports w e = some w') : ∃ live, Tracks w'.loop.tables live := by
  obtain ⟨live, htracks⟩ := htracks
  cases e with
  | recv l =>
    cases h
    exact ⟨live, htracks⟩
  | message m =>
    obtain ⟨loop, hloop, rfl⟩ := Option.map_eq_some_iff.mp h
    rcases procMessage_tables hloop with hsame | ⟨op, hop⟩
    · exact ⟨live, hsame ▸ htracks⟩
    · exact ⟨_, hop ▸ htracks.step op⟩

theorem foldlM_messages (nicId : UInt32 → Option UInt32) (ports : UInt32 → Option UInt8)
    (ms : List Message) (w : Watch) :
    (ms.map .message).foldlM (step nicId ports) w =
      (ms.foldlM (procMessage nicId ports) w.loop).map fun loop =>
        ⟨loop, ms.foldl (Announced.apply (iface nicId ports)) w.announced⟩ := by
  induction ms generalizing w with
  | nil => rfl
  | cons m ms ih =>
    rw [List.map_cons, List.foldlM_cons, List.foldlM_cons, step]
    cases procMessage nicId ports w.loop m with
    | none => rfl
    | some loop => exact ih ⟨loop, _⟩

theorem foldlM_procLoop (buffers : List Buffer) (w : Watch) :
    buffers.foldlM (procLoop nicId ports) w.loop.tables =
      ((buffers.flatMap Buffer.events).foldlM (step nicId ports) w).map fun w => w.loop.tables := by
  induction buffers generalizing w with
  | nil => rfl
  | cons b buffers ih =>
    have hevents := foldlM_messages nicId ports b.messages
      { w with loop := ⟨w.loop.tables, b.locals⟩ }
    rw [List.foldlM_cons, List.flatMap_cons, List.foldlM_append, Buffer.events, List.foldlM_cons]
    change procLoop nicId ports w.loop.tables b >>= _ = Option.map _ ((b.messages.map Event.message).foldlM _ _ >>= _)
    rw [hevents, procLoop]
    cases b.messages.foldlM (procMessage nicId ports) ⟨w.loop.tables, b.locals⟩ with
    | none => rfl
    | some loop => exact ih ⟨loop, _⟩

theorem tracks_start : Tracks Watch.start.loop.tables fun _ _ => PrefixMap.empty :=
  tracks_run onePort []

theorem along_holds_iff {es : List Event}
    (hknown : ∀ e ∈ es, ∀ m, e = .message m → m.Known nicId ports) :
    Runs.Along (step nicId ports) Holds Watch.start es ↔
      Runs.Guarded (step nicId ports) (Fits nicId ports) Watch.start es := by
  refine Runs.along_iff_guarded (fun w e _ w' htracks h => step_tracks htracks h) ?_
    ⟨_, tracks_start⟩ ((holds_iff tracks_start).mpr rfl)
  rintro w e he ⟨live, htracks⟩ hholds
  exact step_iff htracks hholds (hknown e he)

/-- Over buffers whose messages name known interfaces, the main table follows what the messages
announce exactly when every message fits. -/
theorem table_follows_iff {buffers : List Buffer}
    (hknown : ∀ b ∈ buffers, ∀ m ∈ b.messages, m.Known nicId ports) :
    Runs.Along (step nicId ports) Holds Watch.start (buffers.flatMap Buffer.events) ↔
      Runs.Guarded (step nicId ports) (Fits nicId ports) Watch.start (buffers.flatMap Buffer.events) := by
  apply along_holds_iff
  rintro e he m rfl
  obtain ⟨b, hb, hm⟩ := List.mem_flatMap.mp he
  rcases List.mem_cons.mp hm with heq | hm
  · cases heq
  · obtain ⟨m', hm', heq⟩ := List.mem_map.mp hm
    cases heq
    exact hknown b hb m hm'

end Facts

def oneNic (index : UInt32) : Option UInt32 :=
  if index = 2 then some 7 else none

def data4 (addr : BitVec 32) : BitVec 128 :=
  addr ++ (0 : BitVec 96)

def network (kind : Kind) (gateway : BitVec 32) : Message :=
  ⟨kind, some ⟨.inet, slash8⟩, [.dst (data4 0x0a000000), .gateway (data4 gateway), .oif 2]⟩

def defaultRoute : Message :=
  ⟨.newroute, some ⟨.inet, .any⟩, [.gateway (data4 0x0a000001), .oif 2]⟩

theorem network_known (kind : Kind) (gateway : BitVec 32) : (network kind gateway).Known oneNic onePort := by
  intro index hindex
  cases hindex
  decide

theorem defaultRoute_known : defaultRoute.Known oneNic onePort := by
  intro index hindex
  cases hindex
  decide

theorem default_route_followed :
    (∀ b ∈ [Buffer.mk 0 [network .newroute 0x0a000001, defaultRoute]], ∀ m ∈ b.messages,
        m.Known oneNic onePort) ∧
      Runs.Along (step oneNic onePort) Holds Watch.start
        ([Buffer.mk 0 [network .newroute 0x0a000001, defaultRoute]].flatMap Buffer.events) := by
  have hknown : ∀ b ∈ [Buffer.mk 0 [network .newroute 0x0a000001, defaultRoute]], ∀ m ∈ b.messages,
      m.Known oneNic onePort := by
    simpa using ⟨network_known .newroute 0x0a000001, defaultRoute_known⟩
  exact ⟨hknown, (table_follows_iff hknown).mpr (by decide +kernel)⟩

theorem withdrawn_route_stays :
    ¬ Runs.Along (step oneNic onePort) Holds Watch.start
        ((Buffer.mk 0 [network .newroute 0x0a000001, network .delroute 0x0a000001]).events) ∧
      ¬ Runs.Along (step oneNic onePort) Holds Watch.start
        ((Buffer.mk 0 [network .newroute 0x0a000001, network .newroute 0x0a000002]).events) ∧
      procLoop oneNic onePort alRouterInit ⟨2, [defaultRoute]⟩ = none := by
  have hknown : ∀ kind gateway, ∀ e ∈ (Buffer.mk 0 [network .newroute 0x0a000001,
      network kind gateway]).events, ∀ m, e = .message m → m.Known oneNic onePort := by
    rintro kind gateway e he m rfl
    simp only [Buffer.events, List.map_cons, List.map_nil, List.mem_cons, reduceCtorEq, Event.message.injEq,
      List.not_mem_nil, or_false, false_or] at he
    rcases he with rfl | rfl
    · exact network_known _ _
    · exact network_known _ _
  refine ⟨fun h => ?_, fun h => ?_, rfl⟩
  · exact absurd ((along_holds_iff (hknown _ _)).mp h) (by decide +kernel)
  · exact absurd ((along_holds_iff (hknown _ _)).mp h) (by decide +kernel)

end Aware.Netlink
