import Aware.Service.Alone

/-!
# Which session handles a packet

Sessions of both families are in one table. The search compares the fields of a session through the
union of the addresses, without its family.
-/
namespace Aware.Service
open Aware.Sessions

inductive Filled {ι : Type} (heap : ι → Session ι) : List (List ι) → Prop
  | empty : Filled heap (List.replicate sessionBuckets [])
  | add {table : List (List ι)} (x : ι) : Filled heap table → Filled heap (alSessionAdd table heap x)
  | unlink {table : List (List ι)} (stays : ι → Bool) : Filled heap table →
      Filled heap (table.map fun b => b.filter stays)

section Lookup
variable {ι : Type} {heap : ι → Session ι} {table : List (List ι)} {pkt : Packet} {x : ι}

/-- The session that the input functions find has the packet's own key, and they find one if
there is one. -/
def LookupExact (table : List (List ι)) (heap : ι → Session ι) (pkt : Packet) : Prop :=
  (∀ x, sessionGet table heap pkt.inputKey = some x → (heap x).key = pkt.key) ∧
    ((∃ x ∈ table.flatten, (heap x).key = pkt.key) → (sessionGet table heap pkt.inputKey).isSome)

def OwnFirst (table : List (List ι)) (heap : ι → Session ι) (pkt : Packet) : Prop :=
  ∀ pre x post, table[bucketOf pkt.key]? = some (pre ++ x :: post) → (heap x).answers pkt.key = true →
    (heap x).inType ≠ pkt.inType → ∃ y ∈ pre, (heap y).key = pkt.key

def NoneInvolved (table : List (List ι)) (heap : ι → Session ι) (pkt : Packet) : Prop :=
  (∀ b, table[bucketOf pkt.inputKey]? = some b → ∀ x ∈ b, (heap x).answers pkt.inputKey = false) ∧
    ∀ x ∈ table.flatten, (heap x).key ≠ pkt.key

theorem key_eq_iff (s : Session ι) (pkt : Packet) :
    s.key = pkt.key ↔ s.answers pkt.key = true ∧ s.inType = pkt.inType := by
  rw [Session.key, Packet.key, Packet.inType]
  cases pkt.family with
  | inet => cases s.inType <;> simp [Session.answers]
  | inet6 => cases s.inType <;> simp [Session.answers]

theorem Filled.bucket (h : Filled heap table) :
    table.length = sessionBuckets ∧
      ∀ i b, table[i]? = some b → ∀ x ∈ b, bucketOf (heap x).key = i := by
  induction h with
  | empty => exact ⟨List.length_replicate, (linked_replicate heap).bucket⟩
  | add x _ ih =>
    exact ⟨(length_alSessionAdd _ _ x).trans ih.1, bucket_alSessionAdd ih.2 x⟩
  | unlink stays _ ih =>
    refine ⟨(List.length_map _).trans ih.1, fun i b hb y hy => ?_⟩
    rw [List.getElem?_map] at hb
    obtain ⟨b', hb', rfl⟩ := Option.map_eq_some_iff.mp hb
    exact ih.2 i b' hb' y (List.mem_filter.mp hy).1

theorem Filled.get_bucket (h : Filled heap table) (k : Key) : ∃ b, table[bucketOf k]? = some b := by
  have hlt : bucketOf k < table.length := h.bucket.1 ▸ bucketOf_lt k
  exact ⟨_, List.getElem?_eq_getElem hlt⟩

theorem split_cases {as bs pre post : List ι} {x y : ι} (h : as ++ y :: bs = pre ++ x :: post) :
    y ∈ pre ∨ x = y ∨ x ∈ as := by
  rcases List.append_eq_append_iff.mp h with ⟨c, rfl, hc⟩ | ⟨c, rfl, hc⟩
  · cases c with
    | nil =>
      cases hc
      exact .inr (.inl rfl)
    | cons z c =>
      cases hc
      exact .inl (List.mem_append_right _ List.mem_cons_self)
  · cases c with
    | nil =>
      cases hc
      exact .inr (.inl rfl)
    | cons z c =>
      cases hc
      exact .inr (.inr (List.mem_append_right _ List.mem_cons_self))

theorem lookupExact_iff_ownFirst (h : Filled heap table) (hk : pkt.inputKey = pkt.key) :
    LookupExact table heap pkt ↔ OwnFirst table heap pkt := by
  obtain ⟨b, hb⟩ := h.get_bucket pkt.key
  have hget : sessionGet table heap pkt.inputKey = b.find? fun x => (heap x).answers pkt.key := by
    rw [hk, sessionGet, hb, Option.getD_some]
  rw [LookupExact, OwnFirst, hget, hb]
  cases hfind : b.find? fun x => (heap x).answers pkt.key with
  | none =>
    rw [List.find?_eq_none] at hfind
    constructor
    · rintro - pre x post hsplit hanswers
      refine absurd hanswers (hfind x ?_)
      rw [Option.some_inj.mp hsplit]
      exact List.mem_append_right _ List.mem_cons_self
    · refine fun _ => ⟨fun x hx => (Option.some_ne_none x hx.symm).elim, ?_⟩
      rintro ⟨x, hx, hkey⟩
      obtain ⟨b', hb', hxb⟩ := mem_bucket h.bucket.2 hx
      rw [hkey, hb, Option.some_inj] at hb'
      exact absurd ((key_eq_iff _ _).mp hkey).1 (hfind x (hb' ▸ hxb))
  | some y =>
    obtain ⟨hy, as, bs, rfl, has⟩ := List.find?_eq_some_iff_append.mp hfind
    have hexact : (∀ x, some y = some x → (heap x).key = pkt.key) ↔ (heap y).key = pkt.key :=
      ⟨fun hall => hall y rfl, fun hown x hx => Option.some_inj.mp hx ▸ hown⟩
    have hsome : (∃ x ∈ table.flatten, (heap x).key = pkt.key) → (some y).isSome = true := fun _ => rfl
    rw [hexact, and_iff_left hsome]
    constructor
    · intro hown pre x post hsplit hanswers hforeign
      rcases split_cases (Option.some_inj.mp hsplit) with hmem | rfl | hmem
      · exact ⟨y, hmem, hown⟩
      · exact absurd ((key_eq_iff _ _).mp hown).2 hforeign
      · exact absurd hanswers (by simpa using has x hmem)
    · intro hfirst
      rw [key_eq_iff]
      refine ⟨hy, ?_⟩
      by_contra hforeign
      obtain ⟨z, hz, hown⟩ := hfirst as y bs rfl hy hforeign
      exact absurd ((key_eq_iff _ _).mp hown).1 (by simpa using has z hz)

theorem inputKey_eq_of_answers {s : Session ι} (h : s.answers pkt.inputKey = true)
    (hown : s.key = pkt.key) : pkt.inputKey = pkt.key := by
  have hanswers := ((key_eq_iff _ _).mp hown).1
  rw [Packet.inputKey, Packet.key] at *
  cases hfam : pkt.family with
  | inet => rfl
  | inet6 =>
    rw [hfam] at h hanswers
    simp only [Session.answers, beq_iff_eq] at h hanswers
    exact congrArg Key.v6 (h.symm.trans hanswers)

theorem lookupExact_iff_noneInvolved (h : Filled heap table) (hk : pkt.inputKey ≠ pkt.key) :
    LookupExact table heap pkt ↔ NoneInvolved table heap pkt := by
  obtain ⟨b, hb⟩ := h.get_bucket pkt.inputKey
  have hget : sessionGet table heap pkt.inputKey = b.find? fun x => (heap x).answers pkt.inputKey := by
    rw [sessionGet, hb, Option.getD_some]
  have hnone : sessionGet table heap pkt.inputKey = none ↔
      ∀ b, table[bucketOf pkt.inputKey]? = some b → ∀ x ∈ b, (heap x).answers pkt.inputKey = false := by
    rw [hget, List.find?_eq_none, hb]
    simp
  rw [NoneInvolved, ← hnone]
  constructor
  · rintro ⟨hown, hfound⟩
    have hmiss : sessionGet table heap pkt.inputKey = none := by
      by_contra hsome
      obtain ⟨x, hx⟩ := Option.ne_none_iff_exists'.mp hsome
      have hanswers := List.find?_some (hget ▸ hx)
      exact hk (inputKey_eq_of_answers hanswers (hown x hx))
    refine ⟨hmiss, fun x hx hkey => ?_⟩
    have hsome := hfound ⟨x, hx, hkey⟩
    rw [hmiss] at hsome
    cases hsome
  · rintro ⟨hmiss, hothers⟩
    rw [LookupExact, hmiss]
    refine ⟨fun x hx => (Option.some_ne_none x hx.symm).elim, ?_⟩
    rintro ⟨x, hx, hkey⟩
    exact absurd hkey (hothers x hx)

/-- The packet's own session handles it exactly when none of the other family comes first, and
for IPv6 with two different ports when no session is involved at all. -/
theorem lookup_exact_iff (h : Filled heap table) (pkt : Packet) :
    LookupExact table heap pkt ↔
      if pkt.family = .inet ∨ pkt.srcPort = pkt.dstPort then OwnFirst table heap pkt
      else NoneInvolved table heap pkt := by
  have hiff : pkt.inputKey = pkt.key ↔ pkt.family = .inet ∨ pkt.srcPort = pkt.dstPort := by
    rw [Packet.inputKey, Packet.key]
    cases pkt.family with
    | inet => simp
    | inet6 => simp
  split
  · rename_i hports
    exact lookupExact_iff_ownFirst h (hiff.mpr hports)
  · rename_i hports
    exact lookupExact_iff_noneInvolved h (hports ∘ hiff.mp)

end Lookup

def oneSession (inType : Bool) : ℕ → Session ℕ := fun _ =>
  { blankSession with
    inType, proto := 6, remoteAddr := ⟨1, 0⟩, localAddr := ⟨1, 0⟩, remotePort := 1, localPort := 2 }

def oneSessionTable (inType : Bool) : List (List ℕ) :=
  alSessionAdd (List.replicate sessionBuckets []) (oneSession inType) 0

def onePacket (family : Family) : Packet := ⟨family, ⟨1, 0⟩, ⟨1, 0⟩, 6, 1, 2, 0, 0, 0⟩

theorem ipv4_session_handles_its_packet : Filled (oneSession false) (oneSessionTable false) ∧
    LookupExact (oneSessionTable false) (oneSession false) (onePacket .inet) := by
  have hfilled : Filled (oneSession false) (oneSessionTable false) := .add 0 .empty
  refine ⟨hfilled, (lookup_exact_iff hfilled _).mpr ?_⟩
  rw [if_pos (.inl rfl)]
  exact fun pre x post hsplit hanswers hforeign => absurd rfl hforeign

theorem ipv6_session_in_both_ways : Filled (oneSession true) (oneSessionTable true) ∧
    ¬ LookupExact (oneSessionTable true) (oneSession true) (onePacket .inet) ∧
      ¬ LookupExact (oneSessionTable true) (oneSession true) (onePacket .inet6) := by
  refine ⟨.add 0 .empty, fun h => ?_, fun h => ?_⟩
  · have hget : sessionGet (oneSessionTable true) (oneSession true) (onePacket .inet).inputKey = some 0 := by
      decide +kernel
    exact absurd (h.1 0 hget) (by decide +kernel)
  · have hmem : (0 : ℕ) ∈ (oneSessionTable true).flatten := by
      rw [oneSessionTable, (flatten_alSessionAdd List.length_replicate 0).mem_iff]
      exact List.mem_cons_self
    have hget : sessionGet (oneSessionTable true) (oneSession true) (onePacket .inet6).inputKey = none := by
      decide +kernel
    have hfound := h.2 ⟨0, hmem, by decide +kernel⟩
    rw [hget] at hfound
    cases hfound

end Aware.Service
