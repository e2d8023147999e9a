import Aware.Dns.Remove
import Mathlib.Data.List.Induction

/-!
# Calls to the store

`al_dns.c`: the records of the domain names. The tree stands for a map from names to records, which
every call changes at its own name.
-/
namespace Aware.Dns
open Function Slots

structure DnsRecord where
  gid : UInt32
  dnsid : UInt32
  deriving DecidableEq, Repr

abbrev DomainTree := ArtTree DnsRecord

/-- The result is -1 also for a name that was inserted. -/
def alDnsInsert (g : DomainTree) (d : ℕ → UInt8) (dlen : ℕ) (gid dnsid : UInt32) :
    Option (DomainTree × Int) :=
  (artInsert g d dlen ⟨gid, dnsid⟩).map fun r => (r.1, -1)

def alDnsLookup (g : DomainTree) (d : ℕ → UInt8) (dlen : ℕ) : Int × Option DnsRecord :=
  match artSearch g d dlen with
  | some ptr => (0, some ptr)
  | none => (-1, none)

def alDnsDelete (g : DomainTree) (d : ℕ → UInt8) (dlen : ℕ) :
    Option (DomainTree × Int × Option DnsRecord) :=
  (artDelete g d dlen).map fun r => (r.1, -1, r.2)

inductive Call where
  | insert (d : ℕ → UInt8) (dlen : ℕ) (gid dnsid : UInt32)
  | delete (d : ℕ → UInt8) (dlen : ℕ)
  | lookup (d : ℕ → UInt8) (dlen : ℕ)

namespace Call

def Terminated : Call → Prop
  | insert d dlen _ _ => 0 ∉ Memory.slice d 0 dlen ∧ d dlen = 0
  | delete d dlen => 0 ∉ Memory.slice d 0 dlen ∧ d dlen = 0
  | lookup d dlen => 0 ∉ Memory.slice d 0 dlen ∧ d dlen = 0

instance : DecidablePred Terminated
  | insert d dlen _ _ => inferInstanceAs (Decidable (0 ∉ Memory.slice d 0 dlen ∧ d dlen = 0))
  | delete d dlen => inferInstanceAs (Decidable (0 ∉ Memory.slice d 0 dlen ∧ d dlen = 0))
  | lookup d dlen => inferInstanceAs (Decidable (0 ∉ Memory.slice d 0 dlen ∧ d dlen = 0))

def Inserts (name : List UInt8) (r : DnsRecord) : Call → Prop
  | insert d dlen gid dnsid => Memory.slice d 0 dlen = name ∧ r = ⟨gid, dnsid⟩
  | _ => False

def Deletes (name : List UInt8) : Call → Prop
  | delete d dlen => Memory.slice d 0 dlen = name
  | _ => False

end Call

def step (g : DomainTree) : Call → Option DomainTree
  | .insert d dlen gid dnsid => (alDnsInsert g d dlen gid dnsid).map Prod.fst
  | .delete d dlen => (alDnsDelete g d dlen).map Prod.fst
  | .lookup _ _ => some g

def run (g : DomainTree) (calls : List Call) : Option DomainTree :=
  calls.foldlM step g

abbrev Records := List UInt8 → Option DnsRecord

def Records.step (records : Records) : Call → Records
  | .insert d dlen gid dnsid => update records (Memory.slice d 0 dlen) (some ⟨gid, dnsid⟩)
  | .delete d dlen => update records (Memory.slice d 0 dlen) none
  | .lookup _ _ => records

def recordsAfter (calls : List Call) : Records :=
  calls.foldl Records.step fun _ => none

/-- The name was inserted with the record, and neither inserted nor deleted since. -/
def Latest (calls : List Call) (name : List UInt8) (r : DnsRecord) : Prop :=
  ∃ before call after, calls = before ++ call :: after ∧ call.Inserts name r ∧
    ∀ later ∈ after, ¬ later.Deletes name ∧ ∀ r', ¬ later.Inserts name r'

structure Represents (g : DomainTree) (records : Records) : Prop where
  valid : g.root = .null ∨ Valid 0 (fun _ => 0) g.root
  holds : ∀ name r, Holds g.root ⟨r, name⟩ ↔ records name = some r

section Steps
variable {g g' : DomainTree} {records : Records} {key : ℕ → UInt8} {name : List UInt8}

theorem Represents.search_sound (h : Represents g records) (hs : Spells key name) {r : DnsRecord}
    (hfound : artSearch g key name.length = some r) : records name = some r :=
  (h.holds name r).mp (searchFrom_sound hs hfound)

theorem Represents.search (h : Represents g records) (hs : Spells key name)
    (hend : key name.length = 0) : artSearch g key name.length = records name := by
  refine Option.ext fun r => ⟨h.search_sound hs, fun hr => ?_⟩
  have hl := (h.holds name r).mpr hr
  rcases h.valid with hnull | hvalid
  · rw [hnull] at hl
    cases hl
  · exact searchFrom_complete hvalid hl hs (.inl hend)

theorem Represents.insert (h : Represents g records) (hs : Spells key name) (hname : 0 ∉ name)
    (hend : key name.length = 0) (gid dnsid : UInt32) :
    ∃ g', alDnsInsert g key name.length gid dnsid = some (g', -1) ∧
      Represents g' (update records name (some ⟨gid, dnsid⟩)) := by
  have hnew : Below 0 (fun _ => 0) (⟨⟨gid, dnsid⟩, name⟩ : ArtLeaf DnsRecord) :=
    ⟨hname, Nat.zero_le _, fun i hi => absurd hi i.not_lt_zero⟩
  obtain ⟨t, old, hins, hvalid, hholds⟩ : ∃ t old,
      recursiveInsert key name.length ⟨gid, dnsid⟩ g.root 0 = some (t, old) ∧
        Valid 0 (fun _ => 0) t ∧ Inserted g.root ⟨⟨gid, dnsid⟩, name⟩ t := by
    rcases h.valid with hnull | hvalid
    · rw [hnull, recursiveInsert, hs.makeLeaf]
      refine ⟨_, _, rfl, .leaf hnew, fun l => ⟨fun hl => ?_, ?_⟩⟩
      · cases hl
        exact .inl rfl
      · rintro (rfl | ⟨hl, -⟩)
        · exact .leaf _
        · cases hl
    · exact recursiveInsert_valid hvalid hs hend hnew
  refine ⟨⟨t, if old.isSome then g.size else g.size + 1⟩, ?_, .inr hvalid,
    fun name' r => (hholds _).trans ?_⟩
  · rw [alDnsInsert, artInsert, hins]
    rfl
  · rw [h.holds, ArtLeaf.mk.injEq]
    by_cases heq : name' = name
    · rw [heq, update_self, Option.some.injEq]
      simp [eq_comm]
    · rw [update_of_ne heq]
      simp [heq]

theorem Represents.delete (h : Represents g records) (hs : Spells key name)
    (hend : key name.length = 0) :
    ∃ g', alDnsDelete g key name.length = some (g', -1, records name) ∧
      Represents g' (update records name none) := by
  have hsearch := h.search hs hend
  rcases h.valid with hnull | hvalid
  · have hnone : ∀ name', records name' = none := by
      intro name'
      refine Option.eq_none_iff_forall_ne_some.mpr fun r hr => ?_
      have hl := (h.holds name' r).mpr hr
      rw [hnull] at hl
      cases hl
    have hdelete : recursiveDelete key name.length g.root 0 = some (.null, none) := by
      rw [hnull]
      rfl
    refine ⟨⟨.null, g.size⟩, ?_, .inl rfl, fun name' r => ?_⟩
    · rw [alDnsDelete, artDelete, hdelete, hnone]
      rfl
    · have hupd : update records name none = records := by
        rw [← hnone name, update_eq_self]
      rw [hupd, ← h.holds, hnull]
  · obtain ⟨t, r, hdelete, hfound, hout⟩ := recursiveDelete_outcome hvalid hs
    rw [← artSearch, hsearch] at hfound
    have hresult : alDnsDelete g key name.length =
        some (⟨t, if r.isSome then g.size - 1 else g.size⟩, -1, records name) := by
      rw [alDnsDelete, artDelete, hdelete, ← hfound]
      rfl
    refine ⟨_, hresult, ?_⟩
    cases r with
    | none =>
      have hupd : update records name none = records := by
        rw [show none = records name from hfound, update_eq_self]
      rw [hupd]
      change t = g.root at hout
      exact ⟨.inr (hout ▸ hvalid), fun name' r => hout ▸ h.holds name' r⟩
    | some l =>
      obtain ⟨hname, hl, hrest, hroot⟩ := hout
      refine ⟨hroot.imp And.right id, fun name' r => (hrest _).trans ?_⟩
      rw [h.holds]
      by_cases heq : name' = name
      · rw [heq, update_self]
        refine ⟨fun ⟨hr, hne⟩ => absurd ?_ hne, fun hr => by cases hr⟩
        exact hvalid.unique ((h.holds name r).mpr hr) hl hname.symm
      · rw [update_of_ne heq]
        exact and_iff_left fun hll => heq (hname ▸ congrArg ArtLeaf.key hll)

theorem step_represents (h : Represents g records) {call : Call} (hcall : call.Terminated) :
    ∃ g', step g call = some g' ∧ Represents g' (records.step call) := by
  cases call with
  | insert d dlen gid dnsid =>
    have hend : d (Memory.slice d 0 dlen).length = 0 := by
      rw [Memory.length_slice]
      exact hcall.2
    obtain ⟨g', hins, hg'⟩ := h.insert (spells_slice d dlen) hcall.1 hend gid dnsid
    rw [Memory.length_slice] at hins
    refine ⟨g', ?_, hg'⟩
    rw [step, hins]
    rfl
  | delete d dlen =>
    have hend : d (Memory.slice d 0 dlen).length = 0 := by
      rw [Memory.length_slice]
      exact hcall.2
    obtain ⟨g', hdel, hg'⟩ := h.delete (spells_slice d dlen) hend
    rw [Memory.length_slice] at hdel
    refine ⟨g', ?_, hg'⟩
    rw [step, hdel]
    rfl
  | lookup d dlen => exact ⟨g, rfl, h⟩

theorem run_represents (h : Represents g records) {calls : List Call}
    (hcalls : ∀ call ∈ calls, call.Terminated) :
    ∃ g', run g calls = some g' ∧ Represents g' (calls.foldl Records.step records) := by
  induction calls generalizing g records with
  | nil => exact ⟨g, rfl, h⟩
  | cons call calls ih =>
    obtain ⟨g₁, hstep, h₁⟩ := step_represents h (hcalls call List.mem_cons_self)
    obtain ⟨g₂, hrun, h₂⟩ := ih h₁ fun c hc => hcalls c (List.mem_cons_of_mem _ hc)
    refine ⟨g₂, ?_, h₂⟩
    rw [run, List.foldlM_cons, hstep]
    exact hrun

theorem init_represents : Represents artTreeInit fun _ => none := by
  refine ⟨.inl rfl, fun name r => ⟨fun hl => ?_, fun hr => ?_⟩⟩
  · cases hl
  · cases hr

end Steps

section History
variable {calls : List Call} {name : List UInt8} {r : DnsRecord}

theorem latest_append (call : Call) : Latest (calls ++ [call]) name r ↔
    call.Inserts name r ∨
      Latest calls name r ∧ ¬ call.Deletes name ∧ ∀ r', ¬ call.Inserts name r' := by
  constructor
  · rintro ⟨before, c, after, heq, hins, hafter⟩
    rcases List.eq_nil_or_concat after with rfl | ⟨rest, last, rfl⟩
    · have hlast := (List.append_inj' heq rfl).2
      cases hlast
      exact .inl hins
    · rw [List.concat_eq_append, ← List.cons_append, ← List.append_assoc] at heq
      obtain ⟨hcalls, hlast⟩ := List.append_inj' heq rfl
      cases hlast
      refine .inr ⟨⟨before, c, rest, hcalls, hins, fun later hl => hafter later ?_⟩, hafter call ?_⟩
      · rw [List.concat_eq_append]
        exact List.mem_append_left _ hl
      · simp
  · rintro (hins | ⟨⟨before, c, after, rfl, hins, hafter⟩, hcall⟩)
    · exact ⟨calls, call, [], rfl, hins, by simp⟩
    · refine ⟨before, c, after ++ [call], by simp, hins, fun later hl => ?_⟩
      rcases List.mem_append.mp hl with hl | hl
      · exact hafter later hl
      · cases List.mem_singleton.mp hl
        exact hcall

theorem recordsAfter_eq_some_iff : recordsAfter calls name = some r ↔ Latest calls name r := by
  induction calls using List.reverseRecOn generalizing r with
  | nil =>
    constructor
    · intro h
      cases h
    · rintro ⟨before, call, after, heq, -⟩
      simp at heq
  | append_singleton calls call ih =>
    rw [latest_append, ← ih, recordsAfter, List.foldl_append, ← recordsAfter]
    cases call with
    | insert d dlen gid dnsid =>
      by_cases heq : Memory.slice d 0 dlen = name
      · simp [Records.step, heq, Call.Inserts, eq_comm]
      · simp [Records.step, update_of_ne (Ne.symm heq), heq, Call.Inserts, Call.Deletes]
    | delete d dlen =>
      by_cases heq : Memory.slice d 0 dlen = name
      · simp [Records.step, heq, Call.Inserts, Call.Deletes]
      · simp [Records.step, update_of_ne (Ne.symm heq), heq, Call.Inserts, Call.Deletes]
    | lookup d dlen => simp [Records.step, Call.Inserts, Call.Deletes]

end History

section Lookups
variable {g : DomainTree} {key : ℕ → UInt8} {k : ℕ} {r : DnsRecord}

theorem alDnsLookup_eq_found : alDnsLookup g key k = (0, some r) ↔ artSearch g key k = some r := by
  rw [alDnsLookup]
  cases artSearch g key k <;> simp

theorem alDnsLookup_eq_missing : alDnsLookup g key k = (-1, none) ↔ artSearch g key k = none := by
  rw [alDnsLookup]
  cases artSearch g key k <;> simp

end Lookups

/-- No call fails, and a lookup after them finds a name exactly if it was inserted and not
deleted since, with the record of its latest insertion. -/
theorem lookup_finds_latest (calls : List Call) (hcalls : ∀ call ∈ calls, call.Terminated) :
    ∃ g, run artTreeInit calls = some g ∧
      ∀ (name : List UInt8) (key : ℕ → UInt8), Spells key name → key name.length = 0 →
        (∀ r, alDnsLookup g key name.length = (0, some r) ↔ Latest calls name r) ∧
          (alDnsLookup g key name.length = (-1, none) ↔ ∀ r, ¬ Latest calls name r) := by
  obtain ⟨g, hrun, hg⟩ := run_represents init_represents hcalls
  refine ⟨g, hrun, fun name key hs hend => ?_⟩
  have hsearch : artSearch g key name.length = recordsAfter calls name := hg.search hs hend
  constructor
  · intro r
    rw [alDnsLookup_eq_found, hsearch, recordsAfter_eq_some_iff]
  · rw [alDnsLookup_eq_missing, hsearch, Option.eq_none_iff_forall_ne_some]
    simp only [Ne, recordsAfter_eq_some_iff]

def buffer (name : List UInt8) : ℕ → UInt8 :=
  fun i => name.getD i 0

theorem spells_buffer (name : List UInt8) : Spells (buffer name) name :=
  fun _ _ => rfl

theorem spells_longer {name longer : List UInt8} (h : name <+: longer) : Spells (buffer longer) name := by
  intro i hi
  obtain ⟨rest, rfl⟩ := h
  exact List.getD_append _ _ _ _ hi

theorem buffer_end (name : List UInt8) : buffer name name.length = 0 :=
  List.getD_eq_default _ _ (Nat.le_refl _)

def sampleCalls : List Call :=
  [.insert (buffer [97]) 1 7 1, .insert (buffer [97, 98]) 2 8 2, .delete (buffer [97]) 1,
    .insert (buffer [97]) 1 9 3]

theorem lookup_finds_latest_sample : (∀ call ∈ sampleCalls, call.Terminated) ∧
    ∃ g, run artTreeInit sampleCalls = some g ∧
      ∀ (name : List UInt8) (key : ℕ → UInt8), Spells key name → key name.length = 0 →
        (∀ r, alDnsLookup g key name.length = (0, some r) ↔ Latest sampleCalls name r) ∧
          (alDnsLookup g key name.length = (-1, none) ↔ ∀ r, ¬ Latest sampleCalls name r) :=
  ⟨by decide, lookup_finds_latest sampleCalls (by decide)⟩

section Following
variable {g : DomainTree} {records : Records} {key : ℕ → UInt8} {name longer : List UInt8}
  {r r' : DnsRecord}

theorem Represents.search_any (h : Represents g records) (hs : Spells key name)
    (hlonger : ∀ longer r, records longer = some r → name <+: longer → name = longer) :
    artSearch g key name.length = records name := by
  refine Option.ext fun r => ⟨h.search_sound hs, fun hr => ?_⟩
  have hl := (h.holds name r).mpr hr
  rcases h.valid with hnull | hvalid
  · rw [hnull] at hl
    cases hl
  · exact searchFrom_complete hvalid hl hs
      (.inr fun l' hl' => hlonger l'.key l'.value ((h.holds _ _).mp hl'))

theorem Represents.search_leaves (h : Represents g records) (hr : records name = some r)
    (hr' : records longer = some r') (hpre : name <+: longer) (hne : name ≠ longer) :
    artSearch g (buffer longer) name.length = none := by
  have hl := (h.holds name r).mpr hr
  have hl' := (h.holds longer r').mpr hr'
  rcases h.valid with hnull | hvalid
  · rw [hnull] at hl
    cases hl
  · exact searchFrom_leaves hvalid hl hl' hpre hne (spells_longer hpre) rfl

end Following

/-- The bytes behind a name have a part in its lookup exactly if it is stored together with a
longer name that begins with it. -/
theorem lookup_ignores_following_iff (calls : List Call) (hcalls : ∀ call ∈ calls, call.Terminated) :
    ∃ g, run artTreeInit calls = some g ∧ ∀ name : List UInt8,
      (∀ key key', Spells key name → Spells key' name →
        alDnsLookup g key name.length = alDnsLookup g key' name.length) ↔
      ¬ ∃ longer r r', Latest calls name r ∧ Latest calls longer r' ∧ name <+: longer ∧ name ≠ longer := by
  obtain ⟨g, hrun, hg⟩ := run_represents init_represents hcalls
  change Represents g (recordsAfter calls) at hg
  refine ⟨g, hrun, fun name => ?_⟩
  simp only [← recordsAfter_eq_some_iff]
  constructor
  · rintro hsame ⟨longer, r, r', hr, hr', hpre, hne⟩
    have hfound := hg.search (spells_buffer name) (buffer_end name)
    have hmissing := hg.search_leaves hr hr' hpre hne
    have heq := hsame _ _ (spells_buffer name) (spells_longer hpre)
    rw [alDnsLookup_eq_found.mpr (hfound.trans hr), alDnsLookup_eq_missing.mpr hmissing] at heq
    cases heq
  · intro hnone key key' hs hs'
    cases hr : recordsAfter calls name with
    | none =>
      have hmissing : ∀ key, Spells key name → artSearch g key name.length = none := by
        intro key hs
        refine Option.eq_none_iff_forall_ne_some.mpr fun r hfound => ?_
        rw [hg.search_sound hs hfound] at hr
        cases hr
      rw [alDnsLookup, alDnsLookup, hmissing key hs, hmissing key' hs']
    | some r =>
      have hlonger : ∀ longer r', recordsAfter calls longer = some r' → name <+: longer →
          name = longer := by
        intro longer r' hr' hpre
        by_contra hne
        exact hnone ⟨longer, r, r', hr, hr', hpre, hne⟩
      rw [alDnsLookup, alDnsLookup, hg.search_any hs hlonger, hg.search_any hs' hlonger]

theorem lookup_ignores_following_iff_sample : (∀ call ∈ sampleCalls, call.Terminated) ∧
    ∃ g, run artTreeInit sampleCalls = some g ∧ ∀ name : List UInt8,
      (∀ key key', Spells key name → Spells key' name →
        alDnsLookup g key name.length = alDnsLookup g key' name.length) ↔
      ¬ ∃ longer r r', Latest sampleCalls name r ∧ Latest sampleCalls longer r' ∧ name <+: longer ∧
        name ≠ longer :=
  ⟨by decide, lookup_ignores_following_iff sampleCalls (by decide)⟩

theorem lookup_reads_following : ¬ ∀ calls g, run artTreeInit calls = some g →
    ∀ (name : List UInt8) (key key' : ℕ → UInt8), Spells key name → Spells key' name →
      alDnsLookup g key name.length = alDnsLookup g key' name.length := by
  intro h
  have hrun : ∃ g, run artTreeInit sampleCalls = some g ∧
      alDnsLookup g (buffer [97]) 1 ≠ alDnsLookup g (buffer [97, 98]) 1 :=
    ⟨_, rfl, by decide⟩
  obtain ⟨g, hg, hne⟩ := hrun
  exact hne (h sampleCalls g hg [97] _ _ (spells_buffer [97]) (spells_longer ⟨[98], rfl⟩))

end Aware.Dns
