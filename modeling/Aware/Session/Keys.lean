import Aware.Address
import Aware.Session.Table
import Aware.Lib.Keyed

/-!
# Keys

The two port tables seen as one, with a key that says which table it belongs to, and the search
for a key in the session table of a thread.
-/
namespace Aware.Sessions

def Ipcs.assign (f : Family) (dst src : Ipcs) : Ipcs :=
  match f with
  | .inet => { dst with ipv4 := src.ipv4 }
  | .inet6 => src

theorem Ipcs.ipv6_ofIpv6 (a : BitVec 128) : (Ipcs.ofIpv6 a).ipv6 = a := by
  refine BitVec.eq_of_getLsbD_eq fun i hi => ?_
  simp only [Ipcs.ipv6, Ipcs.ofIpv6, BitVec.getLsbD_append, BitVec.getLsbD_extractLsb']
  split
  · rename_i hlow
    simp [hlow]
  · rename_i hlow
    rw [decide_eq_true (by omega : i - 32 < 96), Bool.true_and, Nat.add_sub_cancel' (by omega)]

inductive Key where
  | v4 (t : Tuple (BitVec 32))
  | v6 (t : Tuple (BitVec 128))
deriving DecidableEq, Repr

def Session.key {ι : Type} (s : Session ι) : Key :=
  if s.inType then .v6 s.tuple6 else .v4 s.tuple4

theorem key_v4 {ι : Type} {s : Session ι} (h : s.inType = false) : s.key = .v4 s.tuple4 := by
  rw [Session.key, h, if_neg Bool.false_ne_true]

def alPortInsert {ι : Type} (p : Ports) (u : Session ι) (threadId : UInt8) : Ports :=
  if u.inType then alPortInsertV6 p u.tuple6 threadId else alPortInsertV4 p u.tuple4 threadId

namespace Ports

def insert (p : Ports) (k : Key) (threadId : UInt8) : Ports :=
  match k with
  | .v4 t => alPortInsertV4 p t threadId
  | .v6 t => alPortInsertV6 p t threadId

def del (p : Ports) : Key → Ports
  | .v4 t => alPortDelV4 p t
  | .v6 t => alPortDelV6 p t

def whichThread (p : Ports) : Key → Option UInt8
  | .v4 t => whichThreadV4 p t
  | .v6 t => whichThreadV6 p t

def entries (p : Ports) : List (Key × UInt8) :=
  (p.v4.map fun e => (.v4 e.tuple, e.threadId)) ++ p.v6.map fun e => (.v6 e.tuple, e.threadId)

def Has (p : Ports) (k : Key) : Prop :=
  k ∈ p.entries.map Prod.fst

instance (p : Ports) (k : Key) : Decidable (p.Has k) :=
  inferInstanceAs (Decidable (_ ∈ _))

variable {p : Ports} {k k' : Key} {t : UInt8} {e : Key × UInt8}

theorem entries_insert : (p.insert k t).entries.Perm ((k, t) :: p.entries) := by
  cases k with
  | v4 a => exact .refl _
  | v6 a => exact List.perm_middle

theorem mem_insert : e ∈ (p.insert k t).entries ↔ e = (k, t) ∨ e ∈ p.entries := by
  rw [entries_insert.mem_iff, List.mem_cons]

theorem has_insert_self : (p.insert k t).Has k := by
  rw [Has, (entries_insert.map Prod.fst).mem_iff]
  exact List.mem_cons_self

theorem Has.insert (h : p.Has k') : (p.insert k t).Has k' := by
  rw [Has, (entries_insert.map Prod.fst).mem_iff]
  exact List.mem_cons_of_mem _ h

theorem nodup_insert (h : (p.entries.map Prod.fst).Nodup) (hk : ¬ p.Has k) :
    ((p.insert k t).entries.map Prod.fst).Nodup := by
  rw [(entries_insert.map Prod.fst).nodup_iff, List.map_cons, List.nodup_cons]
  exact ⟨hk, h⟩

theorem eraseP_map_tuple {A : Type} [DecidableEq A] (l : List (PortEntry A)) {g : Tuple A → Key}
    (hg : Function.Injective g) (a : Tuple A) :
    (l.map fun e => (g e.tuple, e.threadId)).eraseP (fun e => e.1 == g a) =
      (portDel l a).map fun e => (g e.tuple, e.threadId) := by
  rw [List.eraseP_map, portDel]
  congr 2
  funext e
  simp [hg.eq_iff, Bool.beq_eq_decide_eq]

theorem entries_del : (p.del k).entries = p.entries.eraseP fun e => e.1 == k := by
  cases k with
  | v4 a =>
    have hright : ∀ e ∈ p.v6.map fun e => (Key.v6 e.tuple, e.threadId), ¬ (e.1 == Key.v4 a) = true := by
      simp
    rw [entries, entries, List.eraseP_append, List.eraseP_of_forall_not hright,
      eraseP_map_tuple p.v4 (g := Key.v4) fun _ _ h => Key.v4.inj h]
    split
    · rfl
    · rename_i hnone
      rw [List.any_eq_true, not_exists] at hnone
      rw [← List.eraseP_of_forall_not (p := fun e => e.1 == Key.v4 a) fun e he hk =>
        hnone e ⟨he, hk⟩, eraseP_map_tuple p.v4 (g := Key.v4) fun _ _ h => Key.v4.inj h]
      rfl
  | v6 a =>
    rw [entries, entries, List.eraseP_append_right _ (by simp),
      eraseP_map_tuple p.v6 (g := Key.v6) fun _ _ h => Key.v6.inj h]
    rfl

theorem mem_del (h : (p.entries.map Prod.fst).Nodup) :
    e ∈ (p.del k).entries ↔ e ∈ p.entries ∧ e.1 ≠ k := by
  rw [entries_del, Keyed.mem_eraseP h]

theorem nodup_del (h : (p.entries.map Prod.fst).Nodup) :
    ((p.del k).entries.map Prod.fst).Nodup := by
  rw [entries_del]
  exact Keyed.nodup_eraseP h _

theorem mem_of_whichThread (h : p.whichThread k = some t) : (k, t) ∈ p.entries := by
  cases k with
  | v4 a =>
    obtain ⟨e, he, rfl⟩ := Option.map_eq_some_iff.mp h
    have htuple : e.tuple = a := by simpa using List.find?_some he
    exact List.mem_append_left _ (List.mem_map.mpr ⟨e, List.mem_of_find?_eq_some he, by rw [htuple]⟩)
  | v6 a =>
    obtain ⟨e, he, rfl⟩ := Option.map_eq_some_iff.mp h
    have htuple : e.tuple = a := by simpa using List.find?_some he
    exact List.mem_append_right _ (List.mem_map.mpr ⟨e, List.mem_of_find?_eq_some he, by rw [htuple]⟩)

theorem portDel_eq_self {A : Type} [DecidableEq A] {l : List (PortEntry A)} {a : Tuple A}
    (h : ∀ e ∈ l, e.tuple ≠ a) : portDel l a = l :=
  List.eraseP_of_forall_not (by simpa using h)

theorem has_v4 {a : Tuple (BitVec 32)} : p.Has (.v4 a) ↔ ∃ e ∈ p.v4, e.tuple = a := by
  simp [Has, entries]

theorem has_v6 {a : Tuple (BitVec 128)} : p.Has (.v6 a) ↔ ∃ e ∈ p.v6, e.tuple = a := by
  simp [Has, entries]

theorem del_of_not_has (h : ¬ p.Has k) : p.del k = p := by
  cases k with
  | v4 a =>
    have hnot : ∀ e ∈ p.v4, e.tuple ≠ a := fun e he heq => h (has_v4.mpr ⟨e, he, heq⟩)
    rw [del, alPortDelV4, portDel_eq_self hnot]
  | v6 a =>
    have hnot : ∀ e ∈ p.v6, e.tuple ≠ a := fun e he heq => h (has_v6.mpr ⟨e, he, heq⟩)
    rw [del, alPortDelV6, portDel_eq_self hnot]

theorem used_of_has_v4 {a : Tuple (BitVec 32)} (h : p.Has (.v4 a)) :
    isConnectPortAlreadyUsedV4 p a = true := by
  obtain ⟨e, he, rfl⟩ := has_v4.mp h
  exact List.any_eq_true.mpr ⟨e, he, by simp⟩

theorem used_iff {A : Type} [DecidableEq A] [Zero A] {key : Tuple A → BitVec 32}
    {l : List (PortEntry A)} {t : Tuple A} (hrip : t.rip ≠ 0) (hlip : t.lip ≠ 0) :
    isConnectPortAlreadyUsed key l t = true ↔ ∃ e ∈ l, e.tuple = t := by
  rw [isConnectPortAlreadyUsed, List.any_eq_true]
  refine exists_congr fun e => and_congr_right fun _ => ?_
  simp only [hrip, hlip, decide_false, Bool.or_false, Bool.and_eq_true, decide_eq_true_eq]
  constructor
  · rintro ⟨⟨⟨⟨⟨-, hlport⟩, hrip'⟩, hlip'⟩, hrport⟩, hproto⟩
    cases htuple : e.tuple with
    | mk rip lip rport lport proto =>
      rw [htuple] at hlport hrip' hlip' hrport hproto
      subst hlport hrip' hlip' hrport hproto
      rfl
  · rintro rfl
    simp

theorem used_of_has_v6 {a : Tuple (BitVec 128)} (h : p.Has (.v6 a)) :
    isConnectPortAlreadyUsedV6 p a = true := by
  obtain ⟨e, he, rfl⟩ := has_v6.mp h
  exact List.any_eq_true.mpr ⟨e, he, by simp⟩

theorem length_del_le (p : Ports) (k : Key) : (p.del k).entries.length ≤ p.entries.length := by
  rw [entries_del]
  exact List.eraseP_sublist.length_le

theorem length_del_lt (h : p.Has k) : (p.del k).entries.length < p.entries.length := by
  obtain ⟨e, he, hk⟩ := List.mem_map.mp h
  have hpos := List.length_pos_of_mem he
  rw [entries_del, List.length_eraseP_of_mem he (by simpa using hk)]
  omega

theorem length_foldl_del_le (ks : List Key) (p : Ports) :
    (ks.foldl del p).entries.length ≤ p.entries.length := by
  induction ks generalizing p with
  | nil => exact Nat.le_refl _
  | cons k ks ih => exact (ih (p.del k)).trans (length_del_le p k)

theorem foldl_del_eq_self_iff {ks : List Key} : ks.foldl del p = p ↔ ∀ k ∈ ks, ¬ p.Has k := by
  induction ks with
  | nil => simp
  | cons k ks ih =>
    rw [List.foldl_cons, List.forall_mem_cons]
    by_cases hk : p.Has k
    · have hlt := (length_foldl_del_le ks (p.del k)).trans_lt (length_del_lt hk)
      exact ⟨fun heq => absurd hlt (by rw [heq]; exact Nat.lt_irrefl _), fun h => absurd hk h.1⟩
    · rw [del_of_not_has hk, ih, and_iff_right hk]

theorem del_insert_self : (p.insert k t).del k = p := by
  cases k with
  | v4 a => simp [insert, del, alPortInsertV4, alPortDelV4, portInsert, portDel]
  | v6 a => simp [insert, del, alPortInsertV6, alPortDelV6, portInsert, portDel]

theorem del_insert_of_ne (h : k ≠ k') : (p.insert k t).del k' = (p.del k').insert k t := by
  cases k with
  | v4 a =>
    cases k' with
    | v4 b =>
      have hne : a ≠ b := fun heq => h (congrArg _ heq)
      simp [insert, del, alPortInsertV4, alPortDelV4, portInsert, portDel, hne]
    | v6 b => rfl
  | v6 a =>
    cases k' with
    | v4 b => rfl
    | v6 b =>
      have hne : a ≠ b := fun heq => h (congrArg _ heq)
      simp [insert, del, alPortInsertV6, alPortDelV6, portInsert, portDel, hne]

theorem del_del_insert : ((p.insert k t).del k').del k = p.del k' := by
  by_cases h : k = k'
  · rw [h, del_insert_self]
  · rw [del_insert_of_ne h, del_insert_self]

end Ports

section
variable {ι : Type}

theorem alPortInsert_eq (p : Ports) (u : Session ι) (t : UInt8) :
    alPortInsert p u t = p.insert u.key t := by
  unfold alPortInsert Session.key
  split <;> rfl

theorem alSessionFree_eq (p : Ports) (s : Session ι) : alSessionFree p s = p.del s.key := by
  unfold alSessionFree Session.key
  split <;> rfl

end

section Table
variable {ι : Type}

def sessionMask : BitVec 32 := 0xffff

def pcb4Key (rip : BitVec 32) (rport : UInt16) (lip : BitVec 32) (lport : UInt16) (proto : UInt8)
    (mask : BitVec 32) : BitVec 32 :=
  ((rip ^^^ (rip >>> 16)) ^^^ (lip ^^^ (lip >>> 16)) ^^^
    ((lport ^^^ rport).toBitVec.setWidth 32) ^^^ (proto.toBitVec.setWidth 32)) &&& mask

def pcb6Key (rip : BitVec 128) (rport : UInt16) (lip : BitVec 128) (lport : UInt16)
    (proto : UInt8) (mask : BitVec 32) : BitVec 32 :=
  let key := rip ^^^ lip
  pcb4Key (key.setWidth 32) rport ((key >>> 32).setWidth 32) lport proto mask

def bucketOf : Key → ℕ
  | .v4 t => (pcb4Key t.rip t.rport t.lip t.lport t.proto sessionMask).toNat
  | .v6 t => (pcb6Key t.rip t.rport t.lip t.lport t.proto sessionMask).toNat

/-- The comparison of `tcp4_session_get` and `tcp6_session_get`, whatever family the session has. -/
def Session.answers (s : Session ι) : Key → Bool
  | .v4 t => s.tuple4 == t
  | .v6 t => s.tuple6 == t

def sessionGet (table : List (List ι)) (heap : ι → Session ι) (k : Key) : Option ι :=
  (table[bucketOf k]?.getD []).find? fun x => (heap x).answers k

theorem sessionGet_spec {table : List (List ι)} {heap : ι → Session ι} {k : Key} {x : ι}
    (h : sessionGet table heap k = some x) : x ∈ table.flatten ∧ (heap x).answers k = true := by
  rw [sessionGet] at h
  have hanswers := List.find?_some h
  have hmem := List.mem_of_find?_eq_some h
  refine ⟨?_, hanswers⟩
  cases hb : table[bucketOf k]? with
  | none =>
    rw [hb] at hmem
    cases hmem
  | some b =>
    rw [hb] at hmem
    exact List.mem_flatten.mpr ⟨b, List.mem_of_getElem? hb, hmem⟩

theorem mem_bucket {table : List (List ι)} {heap : ι → Session ι} {x : ι}
    (h : ∀ i b, table[i]? = some b → ∀ x ∈ b, bucketOf (heap x).key = i) (hx : x ∈ table.flatten) :
    ∃ b, table[bucketOf (heap x).key]? = some b ∧ x ∈ b := by
  obtain ⟨b, hb, hxb⟩ := List.mem_flatten.mp hx
  obtain ⟨i, hi⟩ := List.mem_iff_getElem?.mp hb
  rw [h i b hi x hxb]
  exact ⟨b, hi, hxb⟩

def alSessionAdd (table : List (List ι)) (heap : ι → Session ι) (x : ι) : List (List ι) :=
  table.modify (bucketOf (heap x).key) (x :: ·)

end Table

end Aware.Sessions
