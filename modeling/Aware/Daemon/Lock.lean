import Aware.Daemon.Supervisor
import Mathlib.Data.Fintype.Basic

/-!
# Several starts

Processes that call `main_loop(ACT_START)` with the same lock file. Each of them asks who holds the
lock, forks away, forks a child, and only then takes the lock.
-/
namespace Aware.Daemon

inductive Stage where
  | before
  | tested
  | ended
  | supervising (s : Supervisor)
deriving DecidableEq, Repr

/-- `children` is the number of worker children that are running, `notice` says that a `SIGCHLD`
is still to be delivered. -/
structure Process where
  stage : Stage
  children : ℕ
  notice : Bool
deriving DecidableEq, Repr

structure System (ι : Type) where
  process : ι → Process
  lock : Option ι

def System.start {ι : Type} : System ι := ⟨fun _ => ⟨.before, 0, false⟩, none⟩

inductive Probe where
  | answered
  | notOpened
  | notFetched
deriving DecidableEq, Repr

/-- What `syslock_info` returns: 0, -1 or the process that holds the lock. -/
inductive LockInfo (ι : Type) where
  | unlocked
  | failed
  | holder (i : ι)

def syslockInfo {ι : Type} (lock : Option ι) : Probe → LockInfo ι
  | .notOpened => .unlocked
  | .notFetched => .failed
  | .answered =>
    match lock with
    | none => .unlocked
    | some i => .holder i

/-- How `main_loop(ACT_START)` goes on: it exits when `rpid > 0`. -/
def LockInfo.stage {ι : Type} : LockInfo ι → Stage
  | .holder _ => .ended
  | .unlocked | .failed => .tested

inductive Action where
  | test (o : Probe)
  | detach (ok : Bool)
  | event (e : Event)
  | setlkFails
  | childExit
  | stray
  | terminate
deriving DecidableEq, Repr

section Model
variable {ι : Type} [DecidableEq ι]

def System.set (y : System ι) (i : ι) (p : Process) (lock : Option ι) : System ι :=
  ⟨Function.update y.process i p, lock⟩

@[simp] theorem System.set_self (y : System ι) (i : ι) (p : Process) (lock : Option ι) :
    (y.set i p lock).process i = p := by
  simp only [System.set, Function.update_self]

theorem System.set_of_ne (y : System ι) {i j : ι} (h : j ≠ i) (p : Process) (lock : Option ι) :
    (y.set i p lock).process j = y.process j := by
  simp only [System.set, Function.update_of_ne h]

def System.released (y : System ι) (i : ι) : Option ι :=
  if y.lock = some i then none else y.lock

/-- What the kernel says to a supervisor: a lock is granted when no other process has it, and a
`SIGCHLD` comes from a child that has ended. -/
def System.Allows (y : System ι) (i : ι) (s : Supervisor) : Event → Prop
  | .run ok => ok = true → s.pc = .syslock → y.lock = none ∨ y.lock = some i
  | .deliver .chld => (y.process i).notice = true
  | .deliver _ => True

instance (y : System ι) (i : ι) (s : Supervisor) : (e : Event) → Decidable (y.Allows i s e)
  | .run _ => inferInstanceAs (Decidable (_ → _))
  | .deliver .chld => inferInstanceAs (Decidable (_ = _))
  | .deliver .usr1 => inferInstanceAs (Decidable True)
  | .deliver .usr2 => inferInstanceAs (Decidable True)

def System.lockAfter (y : System ι) (i : ι) (s s' : Supervisor) : Option ι :=
  if s'.pc = .exited then y.released i
  else if s.pc = .syslock ∧ s'.pc = .sleep then some i
  else y.lock

def Process.after (p : Process) (s s' : Supervisor) (e : Event) : Process where
  stage := .supervising s'
  children := p.children + (s'.forks - s.forks)
  notice := p.notice && decide (e ≠ .deliver .chld)

def System.step (y : System ι) (a : ι × Action) : Option (System ι) :=
  let p := y.process a.1
  match a.2, p.stage with
  | .test o, .before => some (y.set a.1 { p with stage := (syslockInfo y.lock o).stage } y.lock)
  | .detach ok, .tested =>
    some (y.set a.1 { p with stage := if ok then .supervising .start else .ended } y.lock)
  | .event e, .supervising s =>
    if y.Allows a.1 s e then
      (s.step e).map fun s' => y.set a.1 (p.after s s' e) (y.lockAfter a.1 s s')
    else none
  | .setlkFails, .supervising s =>
    if s.pc = .syslock then
      some (y.set a.1 { p with stage := .supervising { s with pc := .failed } } (y.released a.1))
    else none
  | .terminate, .supervising s =>
    if s.pc = .failed then some (y.set a.1 { p with stage := .ended } (y.released a.1)) else none
  | .childExit, _ =>
    if 0 < p.children then some (y.set a.1 { p with children := p.children - 1, notice := true } y.lock)
    else none
  | .stray, _ => some (y.set a.1 { p with notice := true } y.lock)
  | _, _ => none

def System.OneChild (y : System ι) : Prop :=
  (∀ i, (y.process i).children ≤ 1) ∧
    ∀ i j, 0 < (y.process i).children → 0 < (y.process j).children → i = j

def Stage.underway : Stage → Bool
  | .tested => true
  | .supervising s =>
    match s.pc with
    | .block | .top | .cleared | .fork | .unblock | .syslock => true
    | _ => false
  | _ => false

def Stage.isAt (pc : Pc) : Stage → Bool
  | .supervising s => decide (s.pc = pc)
  | _ => false

/-- Starts do not overlap: the lock is held, or free with no process underway to it; and a
`SIGCHLD` is for the end of a child. -/
def Apart (y : System ι) (a : ι × Action) : Prop :=
  match a.2 with
  | .test o =>
    y.lock ≠ none ∧ o = .answered ∨ y.lock = none ∧ ∀ j, (y.process j).stage.underway = false
  | .event (.run false) => (y.process a.1).stage.isAt .unblock = false ∧
      ((y.process a.1).stage.isAt .syslock = true → y.lock ≠ none ∧ y.lock ≠ some a.1)
  | .setlkFails => y.lock ≠ none ∧ y.lock ≠ some a.1
  | .stray => False
  | _ => True

instance [Fintype ι] (y : System ι) : (a : ι × Action) → Decidable (Apart y a)
  | (_, .test _) => inferInstanceAs (Decidable (_ ∨ _))
  | (_, .event (.run false)) => inferInstanceAs (Decidable (_ ∧ _))
  | (_, .setlkFails) => inferInstanceAs (Decidable (_ ∧ _))
  | (_, .stray) => inferInstanceAs (Decidable False)
  | (_, .event (.run true)) => inferInstanceAs (Decidable True)
  | (_, .event (.deliver _)) => inferInstanceAs (Decidable True)
  | (_, .detach _) => inferInstanceAs (Decidable True)
  | (_, .childExit) => inferInstanceAs (Decidable True)
  | (_, .terminate) => inferInstanceAs (Decidable True)

end Model

def Pc.mayRun : Pc → Bool
  | .unblock | .syslock | .sleep | .testChild | .testReload | .killReload | .testStop | .killStop
  | .setShutdown => true
  | _ => false

def Pc.locking : Pc → Bool
  | .sleep | .testChild | .testShutdown | .reap | .testReload | .killReload | .testStop | .killStop
  | .setShutdown => true
  | _ => false

/-- The status is 1 only when the child has ended and this has been told, and a supervisor forks
only after that. -/
structure Supervisor.Knows (s : Supervisor) (children : ℕ) (notice : Bool) : Prop where
  idle : s.pc.mayRun = false → children = 0 ∧ notice = false
  status : s.sysStatus = .child → children = 0 ∧ notice = false
  once : notice = true → children = 0
  single : children ≤ 1
  clear : s.pc = .cleared ∨ s.pc = .fork → s.sysStatus ≠ .child

variable {s s' : Supervisor} {children : ℕ} {notice ok : Bool} {sig : Signal}

theorem Supervisor.Knows.goto (h : s.Knows children notice) (hforks : s'.forks = s.forks)
    (hstatus : s'.sysStatus = s.sysStatus)
    (hidle : s'.pc.mayRun = false → s.pc.mayRun = false ∨ s.sysStatus = .child)
    (hclear : s'.pc = .cleared ∨ s'.pc = .fork → s.pc = .cleared) :
    s'.Knows (children + (s'.forks - s.forks)) notice := by
  rw [hforks, Nat.sub_self, Nat.add_zero]
  exact ⟨fun hrun => (hidle hrun).elim h.idle h.status, fun hchild => h.status (hstatus ▸ hchild), h.once,
    h.single, fun hpc => hstatus ▸ h.clear (.inl (hclear hpc))⟩

theorem Supervisor.Knows.run (h : s.Knows children notice)
    (hok : ok = false → s.pc ≠ .unblock ∧ s.pc ≠ .syslock) (hs : s.run ok = some s') :
    s'.Knows (children + (s'.forks - s.forks)) notice := by
  unfold Supervisor.run at hs
  cases hpc : s.pc with
  | top =>
    have hnone := h.idle (hpc ▸ rfl)
    rw [hpc] at hs
    cases hs
    rw [Nat.sub_self, Nat.add_zero]
    exact ⟨fun _ => hnone, nofun, h.once, h.single, nofun⟩
  | fork =>
    obtain ⟨rfl, rfl⟩ := h.idle (hpc ▸ rfl)
    have hstatus := h.clear (.inr hpc)
    rw [hpc] at hs
    cases hs
    cases ok with
    | false => exact h.goto rfl rfl (fun _ => .inl (hpc ▸ rfl)) nofun
    | true =>
      change Supervisor.Knows _ (0 + (s.forks + 1 - s.forks)) _
      rw [Nat.add_sub_cancel_left]
      exact ⟨nofun, fun hchild => absurd hchild hstatus, nofun, le_rfl, nofun⟩
  | block =>
    rw [hpc] at hs
    cases hs
    cases ok <;> exact h.goto rfl rfl (fun _ => .inl (hpc ▸ rfl)) nofun
  | cleared =>
    rw [hpc] at hs
    cases hs
    exact h.goto rfl rfl (fun _ => .inl (hpc ▸ rfl)) fun _ => hpc
  | unblock | syslock =>
    rw [hpc] at hs hok
    cases hs
    cases ok with
    | false => simp at hok
    | true => exact h.goto rfl rfl nofun nofun
  | testChild =>
    rw [hpc] at hs
    cases hs
    by_cases hchild : s.sysStatus = .child
    · exact h.goto rfl rfl (fun _ => .inr hchild) (by rw [if_pos hchild]; nofun)
    · exact h.goto rfl rfl (by rw [if_neg hchild]; nofun) (by rw [if_neg hchild]; nofun)
  | testShutdown =>
    rw [hpc] at hs
    cases hs
    exact h.goto rfl rfl (fun _ => .inl (hpc ▸ rfl)) (by cases s.shutdown <;> nofun)
  | reap =>
    rw [hpc] at hs
    cases hs
    exact h.goto rfl rfl (fun _ => .inl (hpc ▸ rfl)) nofun
  | testReload | testStop =>
    rw [hpc] at hs
    cases hs
    refine h.goto rfl rfl ?_ ?_ <;> dsimp only <;> split <;> nofun
  | sleep | killReload | killStop | setShutdown =>
    rw [hpc] at hs
    cases hs
    exact h.goto rfl rfl nofun nofun
  | failed | exited =>
    rw [hpc] at hs
    cases hs

theorem Supervisor.Knows.deliver (h : s.Knows children notice) (hsig : sig = .chld → notice = true)
    (hs : s.deliver sig = some s') :
    s'.Knows (children + (s'.forks - s.forks)) (notice && decide (Event.deliver sig ≠ .deliver .chld)) := by
  obtain ⟨hidle, hstatus, honce, hsingle, hclear⟩ := h
  unfold Supervisor.deliver at hs
  split at hs
  · cases hs
  · cases hs
    rw [Nat.sub_self, Nat.add_zero]
    cases sig with
    | chld =>
      have hended : children = 0 := honce (hsig rfl)
      have hpc : s.pc.mayRun ≠ false := fun hnot =>
        absurd ((hsig rfl).symm.trans (hidle hnot).2) (by decide)
      rw [decide_eq_false (fun hne => hne rfl), Bool.and_false]
      refine ⟨fun _ => ⟨hended, rfl⟩, fun _ => ⟨hended, rfl⟩, fun _ => hended, hsingle, fun hat => ?_⟩
      rcases hat with hat | hat
      · exact absurd (congrArg Pc.mayRun hat) hpc
      · exact absurd (congrArg Pc.mayRun hat) hpc
    | usr1 | usr2 =>
      rw [decide_eq_true (by decide), Bool.and_true]
      refine ⟨hidle, fun hst => ?_, honce, hsingle, fun _ hst => ?_⟩
      · cases hst
      · cases hst

def Process.Sane (p : Process) : Prop :=
  match p.stage with
  | .supervising s => s.Knows p.children p.notice
  | _ => p.children = 0 ∧ p.notice = false

def Stage.active : Stage → Bool
  | .tested => true
  | .supervising s => decide (s.pc ≠ .failed ∧ s.pc ≠ .exited)
  | _ => false

def Stage.locking : Stage → Bool
  | .supervising s => s.pc.locking
  | _ => false

theorem Stage.active_of_locking {st : Stage} (h : st.locking = true) : st.active = true := by
  cases st with
  | supervising s => cases hpc : s.pc <;> simp_all [Stage.locking, Stage.active, Pc.locking]
  | before | tested | ended => cases h

theorem Stage.underway_or_locking {st : Stage} (h : st.active = true) :
    st.underway = true ∨ st.locking = true := by
  cases st with
  | supervising s =>
    cases hpc : s.pc <;> simp_all [Stage.locking, Stage.active, Pc.locking, Stage.underway]
  | tested => exact .inl rfl
  | before | ended => cases h

theorem Process.Sane.le_one {p : Process} (h : p.Sane) : p.children ≤ 1 := by
  unfold Process.Sane at h
  cases hst : p.stage with
  | supervising s =>
    rw [hst] at h
    exact h.single
  | before | tested | ended =>
    rw [hst] at h
    exact h.1.trans_le (Nat.zero_le 1)

theorem Process.Sane.active_of_child {p : Process} (h : p.Sane) (hchild : 0 < p.children) :
    p.stage.active = true := by
  unfold Process.Sane at h
  cases hst : p.stage with
  | supervising s =>
    rw [hst] at h
    have hrun : s.pc.mayRun ≠ false := by
      intro hidle
      rw [(h.idle hidle).1] at hchild
      exact Nat.lt_irrefl 0 hchild
    cases hpc : s.pc <;> simp_all [Stage.active, Pc.mayRun]
  | before | tested | ended =>
    rw [hst] at h
    rw [h.1] at hchild
    exact absurd hchild (Nat.lt_irrefl 0)

section Sound
variable {ι : Type}

structure System.Sound (y : System ι) : Prop where
  sane : ∀ i, (y.process i).Sane
  single : ∀ i j, (y.process i).stage.active = true → (y.process j).stage.active = true → i = j
  free : ∀ i, (y.process i).stage.active = true → y.lock = none ∨ y.lock = some i
  holder : ∀ i, (y.process i).stage.locking = true → y.lock = some i

variable {y : System ι} {i : ι}

theorem System.Sound.oneChild (h : y.Sound) : y.OneChild :=
  ⟨fun i => (h.sane i).le_one, fun i j hi hj =>
    h.single i j ((h.sane i).active_of_child hi) ((h.sane j).active_of_child hj)⟩

theorem System.Sound.start : (System.start : System ι).Sound where
  sane _ := ⟨rfl, rfl⟩
  single _ _ hi := by cases hi
  free _ hi := by cases hi
  holder _ hi := by cases hi

variable [DecidableEq ι]

theorem System.Sound.set {p : Process} {lock : Option ι} (h : y.Sound)
    (hsane : p.Sane) (hactive : p.stage.active = true → (y.process i).stage.active = true)
    (hlock : lock = y.lock ∨ lock = y.released i ∨ lock = some i ∧ (y.process i).stage.active = true)
    (hholder : p.stage.locking = true → lock = some i) : (y.set i p lock).Sound := by
  have hold : ∀ j, ((y.set i p lock).process j).stage.active = true → (y.process j).stage.active = true := by
    intro j hj
    by_cases hji : j = i
    · subst hji
      apply hactive
      rwa [System.set_self] at hj
    · rwa [System.set_of_ne y hji] at hj
  refine ⟨fun j => ?_, fun j k hj hk => h.single j k (hold j hj) (hold k hk), fun j hj => ?_, fun j hj => ?_⟩
  · by_cases hji : j = i
    · subst hji
      rwa [System.set_self]
    · rw [System.set_of_ne y hji]
      exact h.sane j
  · have hfree := h.free j (hold j hj)
    change lock = none ∨ lock = some j
    rcases hlock with rfl | rfl | ⟨rfl, hi⟩
    · exact hfree
    · unfold System.released
      split
      · exact .inl rfl
      · exact hfree
    · rw [h.single j i (hold j hj) hi]
      exact .inr rfl
  · change lock = some j
    by_cases hji : j = i
    · subst hji
      apply hholder
      rwa [System.set_self] at hj
    · rw [System.set_of_ne y hji] at hj
      have hheld := h.holder j hj
      rcases hlock with rfl | rfl | ⟨-, hi⟩
      · exact hheld
      · rw [System.released, if_neg, hheld]
        rw [hheld]
        exact fun hsame => hji (Option.some.inj hsame)
      · exact absurd (h.single j i (Stage.active_of_locking hj) hi) hji

theorem System.Sound.test (h : y.Sound) (hfree : y.lock = none)
    (hapart : ∀ j, (y.process j).stage.underway = false) (hbefore : (y.process i).stage = .before) :
    (y.set i { y.process i with stage := .tested } y.lock).Sound := by
  have hnone : ∀ j, (y.process j).stage.active ≠ true := by
    intro j hj
    rcases Stage.underway_or_locking hj with hunder | hlocking
    · exact absurd (hunder.symm.trans (hapart j)) (by decide)
    · have hheld := h.holder j hlocking
      rw [hfree] at hheld
      cases hheld
  have honly : ∀ j, ((y.set i { y.process i with stage := .tested } y.lock).process j).stage.active = true →
      j = i := by
    intro j hj
    by_contra hji
    rw [System.set_of_ne y hji] at hj
    exact hnone j hj
  refine ⟨fun j => ?_, fun j k hj hk => (honly j hj).trans (honly k hk).symm, fun j _ => .inl hfree, fun j hj => ?_⟩
  · by_cases hji : j = i
    · subst hji
      have hsane := h.sane j
      rw [Process.Sane, hbefore] at hsane
      rw [System.set_self]
      exact hsane
    · rw [System.set_of_ne y hji]
      exact h.sane j
  · have hji := honly j (Stage.active_of_locking hj)
    rw [hji, System.set_self] at hj
    cases hj

theorem Supervisor.pc_of_step {e : Event} (h : s.step e = some s') :
    (s'.pc ≠ .failed ∧ s'.pc ≠ .exited → s.pc ≠ .failed ∧ s.pc ≠ .exited) ∧
      (s'.pc.locking = true → s.pc.locking = true ∨ s.pc = .syslock ∧ s'.pc = .sleep) := by
  cases e with
  | deliver sig =>
    change s.deliver sig = some s' at h
    unfold Supervisor.deliver at h
    split at h
    · cases h
    · cases h
      exact ⟨id, .inl⟩
  | run ok =>
    change s.run ok = some s' at h
    unfold Supervisor.run at h
    cases hpc : s.pc <;> grind [Pc.locking]

theorem System.Sound.event {e : Event} (h : y.Sound)
    (hst : (y.process i).stage = .supervising s) (hallows : y.Allows i s e) (hapart : Apart y (i, .event e))
    (hs : s.step e = some s') :
    (y.set i ((y.process i).after s s' e) (y.lockAfter i s s')).Sound := by
  obtain ⟨hpc, hlocking⟩ := Supervisor.pc_of_step hs
  have hknows : s.Knows (y.process i).children (y.process i).notice := by
    have hsane := h.sane i
    rwa [Process.Sane, hst] at hsane
  have hactive : ((y.process i).after s s' e).stage.active = true → (y.process i).stage.active = true := by
    intro hs'
    rw [hst]
    exact decide_eq_true (hpc (of_decide_eq_true hs'))
  apply h.set _ hactive
  · unfold System.lockAfter
    split
    · exact .inr (.inl rfl)
    · split
      · rename_i hlock
        refine .inr (.inr ⟨rfl, hactive ?_⟩)
        change decide (s'.pc ≠ .failed ∧ s'.pc ≠ .exited) = true
        rw [hlock.2]
        decide
      · exact .inl rfl
  · intro hl
    change s'.pc.locking = true at hl
    have hstays : s'.pc ≠ .exited := by
      intro hexit
      rw [hexit] at hl
      cases hl
    rw [System.lockAfter, if_neg hstays]
    split
    · rfl
    · rename_i hnot
      apply h.holder
      rw [hst]
      exact (hlocking hl).resolve_right hnot
  · cases e with
    | deliver sig =>
      apply hknows.deliver _ hs
      intro hsig
      subst hsig
      exact hallows
    | run ok =>
      change s'.Knows _ ((y.process i).notice && decide (Event.run ok ≠ .deliver .chld))
      rw [decide_eq_true (fun heq => by cases heq), Bool.and_true]
      apply hknows.run _ hs
      intro hok
      subst hok
      obtain ⟨hunblock, hsyslock⟩ := hapart
      rw [hst] at hunblock hsyslock
      refine ⟨of_decide_eq_false hunblock, fun hat => ?_⟩
      have hfree := h.free i (by rw [hst, Stage.active, hat]; decide)
      have hheld := hsyslock (decide_eq_true hat)
      exact hfree.elim hheld.1 hheld.2

theorem Process.Sane.childExit {q : Process} (h : q.Sane) (hchild : 0 < q.children) :
    { q with children := q.children - 1, notice := true : Process }.Sane := by
  unfold Process.Sane at h ⊢
  cases hst : q.stage with
  | supervising s =>
    rw [hst] at h
    have hrun : ∀ {p : Prop}, q.children = 0 ∧ q.notice = false → p :=
      fun hnone => absurd hnone.1 (Nat.ne_of_gt hchild)
    have hended : q.children - 1 = 0 := Nat.sub_eq_zero_of_le h.single
    exact ⟨fun hidle => hrun (h.idle hidle), fun hstat => hrun (h.status hstat), fun _ => hended,
      hended.trans_le (Nat.zero_le 1), h.clear⟩
  | before | tested | ended =>
    rw [hst] at h
    exact absurd h.1 (Nat.ne_of_gt hchild)

theorem System.Sound.step {y' : System ι} {a : ι × Action} (h : y.Sound) (hapart : Apart y a)
    (hs : y.step a = some y') : y'.Sound := by
  obtain ⟨i, act⟩ := a
  have hsane := h.sane i
  unfold Process.Sane at hsane
  cases act with
  | test o =>
    cases hst : (y.process i).stage with
    | before =>
      rw [hst] at hsane
      simp only [System.step, hst, Option.some.injEq] at hs
      subst hs
      rcases hapart with ⟨hheld, rfl⟩ | ⟨hfree, hapart⟩
      · obtain ⟨j, hj⟩ := Option.ne_none_iff_exists'.mp hheld
        have hended : (syslockInfo y.lock .answered).stage = .ended := by rw [hj]; rfl
        rw [hended]
        exact h.set hsane (fun hact => by cases hact) (.inl rfl) (fun hl => by cases hl)
      · have htested : (syslockInfo y.lock o).stage = .tested := by rw [hfree]; cases o <;> rfl
        rw [htested]
        exact h.test hfree hapart hst
    | tested | ended | supervising s => simp [System.step, hst] at hs
  | detach ok =>
    cases hst : (y.process i).stage with
    | tested =>
      rw [hst] at hsane
      simp only [System.step, hst, Option.some.injEq] at hs
      subst hs
      cases ok with
      | true =>
        refine h.set ?_ (fun _ => by rw [hst]; rfl) (.inl rfl) (fun hl => by cases hl)
        exact ⟨fun _ => hsane, fun hstat => (by cases hstat), fun _ => hsane.1,
          hsane.1.trans_le (Nat.zero_le 1), fun _ hstat => by cases hstat⟩
      | false => exact h.set hsane (fun hact => by cases hact) (.inl rfl) (fun hl => by cases hl)
    | before | ended | supervising s => simp [System.step, hst] at hs
  | event e =>
    cases hst : (y.process i).stage with
    | supervising s =>
      simp only [System.step, hst] at hs
      split at hs
      · rename_i hallows
        obtain ⟨s', hs', rfl⟩ := Option.map_eq_some_iff.mp hs
        exact h.event hst hallows hapart hs'
      · cases hs
    | before | tested | ended => simp [System.step, hst] at hs
  | setlkFails =>
    cases hst : (y.process i).stage with
    | supervising s =>
      simp only [System.step, hst] at hs
      split at hs
      · rename_i hat
        have hfree := h.free i (by rw [hst, Stage.active, hat]; decide)
        exact (hfree.elim hapart.1 hapart.2).elim
      · cases hs
    | before | tested | ended => simp [System.step, hst] at hs
  | stray => exact hapart.elim
  | terminate =>
    cases hst : (y.process i).stage with
    | supervising s =>
      rw [hst] at hsane
      simp only [System.step, hst] at hs
      split at hs
      · rename_i hfailed
        cases hs
        refine h.set (hsane.idle ?_) (fun hact => by cases hact) (.inr (.inl rfl)) (fun hl => by cases hl)
        rw [hfailed]
        rfl
      · cases hs
    | before | tested | ended => simp [System.step, hst] at hs
  | childExit =>
    have hchild : 0 < (y.process i).children ∧
        y' = y.set i { y.process i with children := (y.process i).children - 1, notice := true } y.lock := by
      cases hst : (y.process i).stage <;> simp_all [System.step]
    obtain ⟨hchild, rfl⟩ := hchild
    exact h.set ((h.sane i).childExit hchild) id (.inl rfl) (h.holder i)

/-- Where the tests and the locks of different starts do not overlap, at most one worker child is
running at any time. -/
theorem one_worker_child {events : List (ι × Action)}
    (hg : Runs.Guarded System.step Apart (System.start : System ι) events) {y : System ι}
    (h : events.foldlM System.step (System.start : System ι) = some y) : y.OneChild :=
  (Runs.Guarded.foldlM_invariant (fun _ _ _ hy hg hs => System.Sound.step hy hg hs) System.Sound.start hg
    h).oneChild

end Sound

def wholeStart : List Action :=
  [.test .answered, .detach true] ++ List.replicate 6 (.event (.run true))

def oneAfterTheOther : List (Fin 2 × Action) := wholeStart.map (fun a => (0, a)) ++ [(1, .test .answered)]

theorem second_start_refused :
    Runs.Guarded System.step Apart (System.start : System (Fin 2)) oneAfterTheOther ∧
      ∃ y, oneAfterTheOther.foldlM System.step (System.start : System (Fin 2)) = some y ∧
        (y.process 0).children = 1 ∧ y.OneChild := by
  have hg : Runs.Guarded System.step Apart (System.start : System (Fin 2)) oneAfterTheOther := by
    decide +kernel
  have hrun : (oneAfterTheOther.foldlM System.step (System.start : System (Fin 2))).map
      (fun y => (y.process 0).children) = some 1 := by decide +kernel
  obtain ⟨y, hy, hchild⟩ := Option.map_eq_some_iff.mp hrun
  exact ⟨hg, y, hy, hchild, one_worker_child hg hy⟩

def overlappingStarts : List (Fin 2 × Action) :=
  [(0, .test .answered), (1, .test .answered), (0, .detach true), (1, .detach true)] ++
    List.replicate 4 (0, .event (.run true)) ++ List.replicate 4 (1, .event (.run true))

theorem two_worker_children :
    ∃ y, overlappingStarts.foldlM System.step (System.start : System (Fin 2)) = some y ∧ ¬ y.OneChild := by
  have hrun : (overlappingStarts.foldlM System.step (System.start : System (Fin 2))).map
      (fun y => ((y.process 0).children, (y.process 1).children)) = some (1, 1) := by decide +kernel
  obtain ⟨y, hy, hchildren⟩ := Option.map_eq_some_iff.mp hrun
  obtain ⟨hzero, hone⟩ := Prod.mk.inj hchildren
  exact ⟨y, hy, fun h => absurd (h.2 0 1 (by omega) (by omega)) (by decide)⟩

end Aware.Daemon
