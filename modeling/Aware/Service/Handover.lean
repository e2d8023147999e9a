import Aware.Lib.Ledger
import Aware.Service.Alone

/-!
# Whose entry it is

As long as no entry is made under a key that has one, and no session without an entry is freed
under a key that has one, the entries of the port table are those of the upstream sessions, and a
packet is never handed over to the thread that has it.
-/
namespace Aware.Service
open Function Aware.Filter Aware.Member Aware.Sessions

section Owns
variable {ι : Type} {w w' : World ι} {t t' : UInt8} {sh : Shared ι} {ph : Phase ι}
  {table : List (List ι)} {x : ι}

def Phase.owned : Phase ι → List ι
  | .entered _ _ _ u _ => [u]
  | .freeing xs => (xs.filter Prod.snd).map Prod.fst
  | _ => []

def OwnedIn (ph : Phase ι) (table : List (List ι)) (heap : ι → Session ι) (x : ι) : Prop :=
  x ∈ ph.owned ∨ x ∈ table.flatten ∧ (heap x).isUps = true

variable {heap : ι → Session ι}

theorem ownedIn_idle : OwnedIn .idle table heap x ↔ x ∈ table.flatten ∧ (heap x).isUps = true :=
  or_iff_right List.not_mem_nil

def Owns (w : World ι) (t : UInt8) (x : ι) : Prop :=
  OwnedIn (w.phase t) (w.table t) w.shared.heap x

def Kept (w : World ι) : Prop :=
  Ledger w.shared.ports.entries (Owns w) fun x => (w.shared.heap x).key

theorem owned_subset (ph : Phase ι) (h : x ∈ ph.owned) : x ∈ ph.objects := by
  cases ph with
  | entered f pkt c u tgt =>
    cases List.mem_singleton.mp h
    exact List.mem_cons_of_mem _ List.mem_cons_self
  | freeing xs =>
    obtain ⟨y, hy, rfl⟩ := List.mem_map.mp h
    exact List.mem_map_of_mem (List.mem_filter.mp hy).1
  | idle | started | opened | paired => cases h

theorem ownedIn_freeing {xs : List (ι × Bool)} {y : ι}
    (hout : x ∉ xs.map Prod.fst ++ table.flatten) :
    OwnedIn (.freeing xs) table heap y ↔ OwnedIn (.freeing ((x, true) :: xs)) table heap y ∧ y ≠ x := by
  have hne : OwnedIn (.freeing xs) table heap y → y ≠ x := by
    rintro (hy | hy) rfl
    · exact hout (List.mem_append_left _ (owned_subset (.freeing xs) hy))
    · exact hout (List.mem_append_right _ hy.1)
  have hcons : OwnedIn (.freeing ((x, true) :: xs)) table heap y ↔
      y = x ∨ OwnedIn (.freeing xs) table heap y := by
    rw [OwnedIn, OwnedIn, ← or_assoc]
    exact or_congr_left List.mem_cons
  rw [hcons]
  constructor
  · exact fun hy => ⟨.inr hy, hne hy⟩
  · exact fun hy => hy.1.resolve_left hy.2

theorem Owns.held (h : Owns w t x) : x ∈ w.held t := by
  rcases h with h | h
  · exact List.mem_append_left _ (owned_subset _ h)
  · exact List.mem_append_right _ h.1

theorem owns_put_self : Owns (w.put t sh ph table) t x ↔ OwnedIn ph table sh.heap x := by
  simp only [Owns, World.put, update_self]

def Stays (heap heap' : ι → Session ι) (x : ι) : Prop :=
  (heap' x).key = (heap x).key ∧ (heap' x).isUps = (heap x).isUps

theorem stays_of_eq {heap' : ι → Session ι} (h : heap' x = heap x) : Stays heap heap' x := by
  rw [Stays, h]
  exact ⟨rfl, rfl⟩

theorem stays_of_onlyStout {heap' : ι → Session ι} (h : OnlyStout heap heap') (x : ι) :
    Stays heap heap' x := by
  obtain ⟨n, hn⟩ := h x
  rw [Stays, hn]
  exact ⟨rfl, rfl⟩

theorem owns_put_of_ne (hstay : ∀ x ∈ w.held t', Stays w.shared.heap sh.heap x) (ht : t' ≠ t) :
    Owns (w.put t sh ph table) t' x ↔ Owns w t' x := by
  simp only [Owns, OwnedIn, World.put, update_of_ne ht]
  refine or_congr_right (and_congr_right fun hx => ?_)
  rw [(hstay x (List.mem_append_right _ hx)).2]

theorem Kept.quiet (h : Kept w)
    (hother : ∀ t', t' ≠ t → ∀ x ∈ w.held t', Stays w.shared.heap sh.heap x)
    (hports : sh.ports = w.shared.ports)
    (hown : ∀ x, OwnedIn ph table sh.heap x ↔ Owns w t x)
    (hkey : ∀ x, Owns w t x → (sh.heap x).key = (w.shared.heap x).key) :
    Kept (w.put t sh ph table) := by
  have hcongr : ∀ t' x, Owns (w.put t sh ph table) t' x ↔ Owns w t' x := by
    intro t' x
    rcases eq_or_ne t' t with rfl | ht
    · exact owns_put_self.trans (hown x)
    · exact owns_put_of_ne (hother t' ht) ht
  have hsame : ∀ t' x, Owns w t' x → (sh.heap x).key = (w.shared.heap x).key := by
    intro t' x hx
    rcases eq_or_ne t' t with rfl | ht
    · exact hkey x hx
    · exact (hother t' ht x hx.held).1
  have hledger := Ledger.congr h hcongr hsame
  rw [← hports] at hledger
  exact hledger

theorem Kept.free (h : Kept w) (hs : Sound w) {xs : List (ι × Bool)}
    (hph : w.phase t = .freeing ((x, true) :: xs)) :
    Kept (w.put t (w.shared.free x) (.freeing xs) (w.table t)) := by
  have hown : Owns w t x := by
    rw [Owns, hph]
    exact .inl List.mem_cons_self
  have hnodup := hs.placed.nodup t
  rw [World.held, hph] at hnodup
  refine Ledger.remove h hown (fun e => ?_) ?_ fun t' y => ?_
  · change e ∈ (alSessionFree w.shared.ports (w.shared.heap x)).entries ↔ _
    rw [alSessionFree_eq, Ports.mem_del h.nodup]
    exact Iff.rfl
  · change ((alSessionFree w.shared.ports (w.shared.heap x)).entries.map Prod.fst).Nodup
    rw [alSessionFree_eq]
    exact Ports.nodup_del h.nodup
  · rcases eq_or_ne t' t with rfl | ht
    · rw [owns_put_self, Owns, hph]
      exact ownedIn_freeing (List.nodup_cons.mp hnodup).1
    · have hother : Owns (w.put t (w.shared.free x) (.freeing xs) (w.table t)) t' y ↔ Owns w t' y :=
        owns_put_of_ne (fun _ _ => stays_of_eq rfl) ht
      rw [hother]
      refine (and_iff_left_of_imp fun hy heq => ht ?_).symm
      exact hs.placed.apart t' t x (heq ▸ hy.held) hown.held

end Owns

section Steps
variable {ι : Type} {w w' : World ι} {t t' : UInt8} {sys : System} {sh : Shared ι}
  {ph : Phase ι} {table : List (List ι)} {x : ι}

def Phase.mustBeFree (heap : ι → Session ι) : Phase ι → List Key
  | .paired f pkt _ _ => if f.ftype = fltSimpleTrans then [] else [pkt.answerKey]
  | .freeing ((x, false) :: _) => [(heap x).key]
  | _ => []

/-- A step that neither makes an entry under a key that has one nor frees a session without an
entry under a key that has one. -/
def Clear (w : World ι) : Event ι → Prop
  | .advance t _ _ =>
    ∀ k ∈ (w.phase t).mustBeFree w.shared.heap, ¬ w.shared.ports.Has k
  | _ => True

instance (w : World ι) : (e : Event ι) → Decidable (Clear w e)
  | .advance t _ _ =>
    inferInstanceAs (Decidable (∀ k ∈ (w.phase t).mustBeFree w.shared.heap, ¬ w.shared.ports.Has k))
  | .receive .. => .isTrue trivial
  | .timeout _ => .isTrue trivial
  | .reorder _ => .isTrue trivial

variable [DecidableEq ι]

theorem Advance.frame {sh₀ : Shared ι} {table₀ : List (List ι)} {ph₀ : Phase ι}
    (h : Advance sys t sh₀ table₀ ph₀ sh ph table) (hx₀ : x ∉ ph₀.objects) (hx : x ∉ ph.objects) :
    sh.heap x = sh₀.heap x := by
  cases h with
  | openClient hpool => exact update_of_ne (fun heq => hx (by simp [Phase.objects, heq])) _ _
  | openUpstream hpool =>
    simp only [Phase.objects, List.mem_cons, List.not_mem_nil, or_false, not_or] at hx
    exact (update_of_ne hx.1 _ _).trans (update_of_ne hx.2 _ _)
  | giveUp hports hpool hheap => exact hheap x fun heq => hx₀ (by simp [Phase.objects, heq])
  | enter hports hpool hheap => exact hheap x fun heq => hx₀ (by simp [Phase.objects, heq])
  | link hup =>
    simp only [Phase.objects, List.mem_cons, List.not_mem_nil, or_false, not_or] at hx₀
    exact (update_of_ne hx₀.1 _ _).trans (update_of_ne hx₀.2 _ _)
  | idle | exhausted | noUpstream | unresolved | done | free => rfl

theorem Advance.table_subset {sh₀ : Shared ι} {table₀ : List (List ι)} {ph₀ : Phase ι}
    (h : Advance sys t sh₀ table₀ ph₀ sh ph table) (hsize : table₀.length = sessionBuckets)
    (hx : x ∈ table₀.flatten) : x ∈ table.flatten := by
  cases h with
  | link hup =>
    rw [(flatten_addPair hsize _ _ _).mem_iff]
    exact List.mem_cons_of_mem _ (List.mem_cons_of_mem _ hx)
  | idle | exhausted | openClient | noUpstream | openUpstream | giveUp | enter | unresolved | done
  | free => exact hx

theorem Sound.frame (hs : Sound w)
    (hadv : Advance sys t w.shared (w.table t) (w.phase t) sh ph table)
    (hs' : Sound (w.put t sh ph table)) :
    (∀ t', t' ≠ t → ∀ x ∈ w.held t', sh.heap x = w.shared.heap x) ∧
      ∀ x ∈ (w.table t).flatten, sh.heap x = w.shared.heap x := by
  have hplaced := hs'.placed
  rw [held_put] at hplaced
  constructor
  · intro t' ht x hx
    refine hadv.frame (fun hobj => ht ?_) fun hobj => ht ?_
    · exact hs.placed.apart t' t x hx (List.mem_append_left _ hobj)
    · refine hplaced.apart t' t x ?_ ?_
      · rwa [update_of_ne ht]
      · rw [update_self]
        exact List.mem_append_left _ hobj
  · intro x hx
    refine hadv.frame (fun hobj => ?_) fun hobj => ?_
    · exact (List.nodup_append.mp (hs.placed.nodup t)).2.2 x hobj x hx rfl
    · have hnodup := hplaced.nodup t
      rw [update_self] at hnodup
      exact (List.nodup_append.mp hnodup).2.2 x hobj x
        (hadv.table_subset (hs.linked t).size hx) rfl

theorem Kept.rearrange (h : Kept w) (hs : Sound w)
    (hadv : Advance sys t w.shared (w.table t) (w.phase t) sh ph (w.table t))
    (hs' : Sound (w.put t sh ph (w.table t))) (hports : sh.ports = w.shared.ports)
    (howned : ph.owned = (w.phase t).owned)
    (hheap : ∀ x ∈ ph.owned, sh.heap x = w.shared.heap x) :
    Kept (w.put t sh ph (w.table t)) := by
  obtain ⟨hother, hlinked⟩ := hs.frame hadv hs'
  refine h.quiet (fun t' ht x hx => stays_of_eq (hother t' ht x hx)) hports (fun x => ?_)
    fun x hx => ?_
  · rw [OwnedIn, howned]
    refine or_congr_right (and_congr_right fun hx => ?_)
    rw [hlinked x hx]
  · rcases hx with hx | hx
    · rw [hheap x (howned ▸ hx)]
    · rw [hlinked x hx.1]

variable {tgt : Target} {f : AlFargs} {c u : ι}

theorem Kept.enter (h : Kept w) (hs : Sound w) {pkt : Packet} (hph : w.phase t = .paired f pkt c u)
    (hadv : Advance sys t w.shared (w.table t) (w.phase t) sh (.entered f pkt c u tgt) (w.table t))
    (hs' : Sound (w.put t sh (.entered f pkt c u tgt) (w.table t)))
    (hports : sh.ports = w.shared.ports.insert (sh.heap u).key t)
    (hfree : ¬ w.shared.ports.Has (sh.heap u).key) :
    Kept (w.put t sh (.entered f pkt c u tgt) (w.table t)) := by
  obtain ⟨hother, hlinked⟩ := hs.frame hadv hs'
  have howned : ∀ x, Owns w t x ↔ x ∈ (w.table t).flatten ∧ (w.shared.heap x).isUps = true := by
    intro x
    rw [Owns, hph]
    exact or_iff_right List.not_mem_nil
  have hmem : ∀ e, e ∈ sh.ports.entries ↔ e = ((sh.heap u).key, t) ∨ e ∈ w.shared.ports.entries := by
    intro e
    rw [hports, Ports.mem_insert]
  refine Ledger.insert h hmem ?_ hfree (fun t' x => ?_) rfl fun t' x hx => ?_
  · change (sh.ports.entries.map Prod.fst).Nodup
    rw [hports]
    exact Ports.nodup_insert h.nodup hfree
  · rcases eq_or_ne t' t with rfl | ht
    · rw [owns_put_self, howned, OwnedIn, Phase.owned, List.mem_singleton, and_iff_right rfl]
      refine or_congr_right (and_congr_right fun hx => ?_)
      rw [hlinked x hx]
    · rw [owns_put_of_ne (fun x hx => stays_of_eq (hother t' ht x hx)) ht]
      exact (or_iff_right fun heq => ht heq.1).symm
  · change (sh.heap x).key = (w.shared.heap x).key
    rcases eq_or_ne t' t with rfl | ht
    · rw [hlinked x ((howned x).mp hx).1]
    · rw [hother t' ht x hx.held]

theorem pair_stays {fam : Family}
    {up : Session ι} (h : resolve sys (sh.heap u) fam tgt = some up) (x : ι) :
    Stays sh.heap (sh.pair c u up f).heap x := by
  have hup : up.key = (sh.heap u).key ∧ up.isUps = (sh.heap u).isUps := by
    obtain ⟨n, -, rfl⟩ := Option.map_eq_some_iff.mp h
    exact ⟨rfl, rfl⟩
  rcases eq_or_ne x c with rfl | hc
  · have hx : (sh.pair x u up f).heap x = { sh.heap x with fid := f.fid, up := u } :=
      update_self ..
    rw [Stays, hx]
    exact ⟨rfl, rfl⟩
  · rcases eq_or_ne x u with rfl | hu
    · have hx : (sh.pair c x up f).heap x = { up with up := c } :=
        (update_of_ne hc _ _).trans (update_self ..)
      rw [Stays, hx]
      exact hup
    · exact stays_of_eq ((update_of_ne hc _ _).trans (update_of_ne hu _ _))

theorem Kept.link (h : Kept w) (hs : Sound w) {pkt : Packet}
    {up : Session ι} (hph : w.phase t = .entered f pkt c u tgt)
    (hup : resolve sys (w.shared.heap u) pkt.family tgt = some up) :
    Kept (w.put t (w.shared.pair c u up f) .idle
      (addPair (w.table t) (w.shared.pair c u up f).heap c u)) := by
  have hready := hs.ready t
  rw [hph] at hready
  have hstay := pair_stays (c := c) (f := f) hup
  refine h.quiet (fun _ _ x _ => hstay x) rfl (fun x => ?_) fun x _ => (hstay x).1
  rw [ownedIn_idle, (hstay x).2, (flatten_addPair (hs.linked t).size _ _ _).mem_iff, Owns, hph,
    OwnedIn, Phase.owned, List.mem_cons, List.mem_cons, List.mem_singleton]
  constructor
  · rintro ⟨rfl | rfl | hx, hups⟩
    · exact .inl rfl
    · exact absurd hups (by rw [hready.2]; decide)
    · exact .inr ⟨hx, hups⟩
  · rintro (rfl | hx)
    · exact ⟨.inl rfl, hready.1⟩
    · exact ⟨.inr (.inr hx.1), hx.2⟩

theorem Kept.advance (h : Kept w) (hs : Sound w) {stk : Stack}
    (hclear : Clear w (.advance t sys stk)) (hw : w.advance t sys stk = some w') : Kept w' := by
  have hs' := hs.advance hw
  obtain ⟨sh, ph, table, hadv, rfl⟩ := advance_spec hw
  have hready := hs.ready t
  change ∀ k ∈ (w.phase t).mustBeFree w.shared.heap, ¬ w.shared.ports.Has k at hclear
  have hadv₀ := hadv
  generalize hph : w.phase t = ph₀ at hadv hready hclear
  cases hadv with
  | link hup => exact h.link hs hph hup
  | enter hports hpool hheap hups hfresh hanswer =>
    refine h.enter hs hph hadv₀ hs' hports fun hhas => ?_
    rw [hready.1] at hfresh hanswer
    rw [Phase.mustBeFree] at hclear
    split at hclear
    · rename_i htype
      exact hfresh htype hhas
    · rename_i htype
      rw [hanswer htype] at hhas
      exact hclear _ List.mem_cons_self hhas
  | @free x b xs =>
    cases b with
    | true => exact h.free hs hph
    | false =>
      have hports : (w.shared.free x).ports = w.shared.ports := by
        have hnot := hclear _ List.mem_cons_self
        rw [Shared.free, alSessionFree_eq, Ports.del_of_not_has hnot]
      exact h.rearrange hs hadv₀ hs' hports (congrArg Phase.owned hph).symm fun _ _ => rfl
  | giveUp hports hpool hheap =>
    exact h.rearrange hs hadv₀ hs' hports (congrArg Phase.owned hph).symm fun _ hx => absurd hx List.not_mem_nil
  | openClient hpool =>
    exact h.rearrange hs hadv₀ hs' rfl (congrArg Phase.owned hph).symm fun _ hx => absurd hx List.not_mem_nil
  | openUpstream hpool =>
    exact h.rearrange hs hadv₀ hs' rfl (congrArg Phase.owned hph).symm fun _ hx => absurd hx List.not_mem_nil
  | idle | exhausted | noUpstream | unresolved | done =>
    exact h.rearrange hs hadv₀ hs' rfl (congrArg Phase.owned hph).symm fun _ _ => rfl

theorem Kept.receive (h : Kept w) (pkt : Packet) (fromNic : Bool) (f : AlFargs) :
    Kept (w.receive t pkt fromNic f) := by
  obtain ⟨sh, ph, hw, hstout, hports, -, hph⟩ := receive_spec w t pkt fromNic f
  rw [hw]
  have howned : ph.owned = (w.phase t).owned := by
    rcases hph with rfl | ⟨hidle, rfl⟩
    · rfl
    · rw [hidle]
      rfl
  have hstay := stays_of_onlyStout hstout
  refine h.quiet (fun _ _ x _ => hstay x) hports (fun x => ?_) fun x _ => (hstay x).1
  rw [OwnedIn, howned, (hstay x).2]
  exact Iff.rfl

theorem Kept.timeout (h : Kept w) (hs : Sound w) (hw : w.timeout t = some w') : Kept w' := by
  rcases timeout_spec hw with rfl | ⟨st, hidle, hst, rfl⟩
  · exact h
  · have hswept := Swept.of_eq_some (hs.linked t).paired hst
    have hstay : ∀ x, Stays w.shared.heap st.heap x := stays_of_onlyStout (onlyStout_timeout hst)
    have hflag : ∀ x, x ∈ (Phase.freeing (st.freed.map fun x => (x, (st.heap x).isUps))).owned ↔
        x ∈ st.freed ∧ (st.heap x).isUps = true := by
      simp [Phase.owned]
    refine h.quiet (fun _ _ x _ => hstay x) rfl (fun x => ?_) fun x _ => (hstay x).1
    rw [Owns, hidle, ownedIn_idle, OwnedIn, (hs.swept hswept).mem_iff, hflag, (hstay x).2,
      List.mem_append, or_and_right]

theorem Kept.step (h : Kept w) (hs : Sound w) {e : Event ι} (hclear : Clear w e)
    (hw : Service.step w e = some w') : Kept w' := by
  cases e with
  | receive t pkt fromNic f =>
    cases hw
    exact h.receive pkt fromNic f
  | advance t sys stk => exact h.advance hs hclear hw
  | timeout t => exact h.timeout hs hw
  | reorder pool =>
    simp only [Service.step] at hw
    split at hw
    · cases hw
      exact h
    · cases hw
      exact h

end Steps

section Consistent
variable {ι : Type} {w : World ι}

def Packet.LooksUpItself (pkt : Packet) : Prop :=
  pkt.family = .inet ∨ pkt.srcPort = pkt.dstPort

/-- The port table and the session tables say the same. An entry may also be that of a session
that its thread is just setting up or freeing. -/
structure Consistent (w : World ι) : Prop where
  entry : ∀ k t, (k, t) ∈ w.shared.ports.entries → ∃ x, (w.shared.heap x).key = k ∧
    (x ∈ (w.table t).flatten ∧ (w.shared.heap x).isUps = true ∨ x ∈ (w.phase t).objects)
  live : ∀ t, ∀ x ∈ (w.table t).flatten, (w.shared.heap x).isUps = true →
    ((w.shared.heap x).key, t) ∈ w.shared.ports.entries
  handover : ∀ (t : UInt8) (pkt : Packet), w.phase t = .idle → pkt.LooksUpItself →
    sessionGet (w.table t) w.shared.heap pkt.inputKey = none →
      w.shared.ports.whichThread pkt.key ≠ some t

theorem Packet.LooksUpItself.inputKey_eq {pkt : Packet} (h : pkt.LooksUpItself) :
    pkt.inputKey = pkt.key := by
  obtain ⟨family, src, dst, proto, sport, dport, port, sHaddr, dHaddr⟩ := pkt
  cases family with
  | inet => rfl
  | inet6 =>
    rcases h with h | h
    · cases h
    · change sport = dport at h
      rw [Packet.inputKey, Packet.key, h]

theorem answers_key (s : Session ι) : s.answers s.key = true := by
  rw [Session.key]
  split
  · exact beq_self_eq_true _
  · exact beq_self_eq_true _

theorem Linked.sessionGet_isSome {table : List (List ι)} {heap : ι → Session ι} {x : ι}
    (h : Linked table heap) (hx : x ∈ table.flatten) :
    sessionGet table heap (heap x).key ≠ none := by
  obtain ⟨b, hb, hxb⟩ := mem_bucket h.bucket hx
  intro hnone
  rw [sessionGet, hb, Option.getD_some, List.find?_eq_none] at hnone
  exact hnone x hxb (answers_key (heap x))

theorem Kept.consistent (h : Kept w) (hs : Sound w) : Consistent w where
  entry k t he := by
    obtain ⟨x, hx, hk⟩ := Ledger.owner h (k, t) he
    refine ⟨x, hk, ?_⟩
    rcases hx with hx | hx
    · exact .inr (owned_subset _ hx)
    · exact .inl hx
  live t x hx hups := Ledger.entry h t x (.inr ⟨hx, hups⟩)
  handover t pkt hidle hself hmiss hthread := by
    obtain ⟨x, hx, hk⟩ := Ledger.owner h _ (Ports.mem_of_whichThread hthread)
    change Owns w t x at hx
    rw [Owns, hidle, ownedIn_idle] at hx
    rw [hself.inputKey_eq] at hmiss
    exact (hs.linked t).sessionGet_isSome hx.1 (hk ▸ hmiss)

theorem kept_start (heap : ι → Session ι) (pool : List ι) (portStart : UInt16) :
    Kept (start heap pool portStart) := by
  have hnone : ∀ t x, ¬ Owns (start heap pool portStart) t x := by
    rintro t x hx
    have hx := ownedIn_idle.mp hx
    simp only [start, List.flatten_replicate_nil] at hx
    exact List.not_mem_nil hx.1
  exact ⟨.nil, fun e he => absurd he List.not_mem_nil, fun t x hx => absurd hx (hnone t x),
    fun t _ x _ hx => absurd hx (hnone t x)⟩

variable [DecidableEq ι]

/-- In every run whose steps are clear the tables agree in every world the run comes to, and no
packet is handed over to the thread that has it. -/
theorem consistent_of_clear (heap : ι → Session ι) {pool : List ι} (hpool : pool.Nodup)
    (portStart : UInt16) {evs : List (Event ι)}
    (hclear : Runs.Guarded step Clear (start heap pool portStart) evs)
    (hrun : evs.foldlM step (start heap pool portStart) = some w) : Consistent w := by
  have hinv := hclear.foldlM_invariant (P := fun w => Sound w ∧ Kept w)
    (fun _ _ _ h hc hs => ⟨h.1.step hs, h.2.step h.1 hc hs⟩)
    ⟨sound_start heap hpool portStart, kept_start heap pool portStart⟩ hrun
  exact hinv.2.consistent hinv.1

end Consistent

def sixObjects : World ℕ :=
  start (fun _ => blankSession) [1, 2, 3, 4, 5, 6] 0

def apartEvents : List (Event ℕ) :=
  [.receive 1 (tcp4 10 1000 20 80) true ⟨1, 1, fltNat⟩,
    .receive 2 (tcp4 11 1000 20 80) true ⟨1, 1, fltNat⟩] ++
  List.replicate 3 (.advance 2 addressless blankStack) ++
  List.replicate 4 (.advance 1 addressless blankStack) ++
  List.replicate 4 (.advance 2 { addressless with arp := fun _ => none } blankStack)

theorem consistent_of_clear_apart :
    ∃ w, apartEvents.foldlM step sixObjects = some w ∧
      w.shared.ports.entries = [(.v4 ⟨20, 10, 80, 1000, 6⟩, 1)] ∧ Consistent w := by
  have hclear : Runs.Guarded step Clear sixObjects apartEvents := by decide +kernel
  have heval : ((apartEvents.foldlM step sixObjects).any fun w =>
      decide (w.shared.ports.entries = [(.v4 ⟨20, 10, 80, 1000, 6⟩, 1)])) = true := by
    decide +kernel
  obtain ⟨w, hrun, hw⟩ := (Option.any_eq_true _ _).mp heval
  rw [decide_eq_true_iff] at hw
  exact ⟨w, hrun, hw, consistent_of_clear _ (by decide) _ hclear hrun⟩

def sharedEvents : List (Event ℕ) :=
  [.receive 1 (tcp4 10 1000 20 80) true ⟨1, 1, fltNat⟩,
    .receive 2 (tcp4 10 1000 20 80) true ⟨1, 1, fltNat⟩] ++
  List.replicate 3 (.advance 2 addressless blankStack) ++
  List.replicate 4 (.advance 1 addressless blankStack) ++
  List.replicate 4 (.advance 2 { addressless with arp := fun _ => none } blankStack)

def Phase.isIdle : Phase ℕ → Bool
  | .idle => true
  | _ => false

theorem answer_handed_to_its_own_thread :
    ∃ w, sharedEvents.foldlM step sixObjects = some w ∧ w.phase 2 = .idle ∧
      sessionGet (w.table 2) w.shared.heap (tcp4 20 80 10 1000).inputKey = none ∧
      w.shared.ports.whichThread (tcp4 20 80 10 1000).key = some 2 ∧
      w.shared.ports.entries = [((tcp4 20 80 10 1000).key, 2)] ∧
      (sessionGet (w.table 1) w.shared.heap (tcp4 20 80 10 1000).inputKey).isSome := by
  have heval : ((sharedEvents.foldlM step sixObjects).any fun w =>
      (w.phase 2).isIdle &&
      decide (sessionGet (w.table 2) w.shared.heap (tcp4 20 80 10 1000).inputKey = none ∧
        w.shared.ports.whichThread (tcp4 20 80 10 1000).key = some 2 ∧
        w.shared.ports.entries = [((tcp4 20 80 10 1000).key, 2)] ∧
        (sessionGet (w.table 1) w.shared.heap (tcp4 20 80 10 1000).inputKey).isSome)) = true := by
    decide +kernel
  obtain ⟨w, hrun, hw⟩ := (Option.any_eq_true _ _).mp heval
  rw [Bool.and_eq_true, decide_eq_true_iff] at hw
  obtain ⟨hidle, hw⟩ := hw
  refine ⟨w, hrun, ?_, hw⟩
  cases hphase : w.phase 2 with
  | idle => rfl
  | _ => rw [hphase] at hidle; cases hidle

end Aware.Service
