import Aware.Lib.Runs

/-!
# The supervisor

`main_loop` of `al_deamon.c` from the point where its handlers are installed. The three handlers
share `sys_status` with the loop: each of them overwrites it, and the loop clears it before a fork.
-/
namespace Aware.Daemon

inductive Status where
  | idle
  | child
  | reload
  | stop
deriving DecidableEq, Repr

inductive Signal where
  | chld
  | usr1
  | usr2
deriving DecidableEq, Repr

def Signal.status : Signal → Status
  | .chld => .child
  | .usr1 => .reload
  | .usr2 => .stop

inductive Pc where
  | block
  | top
  | cleared
  | fork
  | unblock
  | syslock
  | sleep
  | testChild
  | testShutdown
  | reap
  | testReload
  | killReload
  | testStop
  | killStop
  | setShutdown
  | failed
  | exited
deriving DecidableEq, Repr

structure Supervisor where
  pc : Pc
  sysStatus : Status
  shutdown : Bool
  blocked : Bool
  forks : ℕ
deriving DecidableEq, Repr

def Supervisor.start : Supervisor := ⟨.block, .idle, false, false, 0⟩

/-- One statement; `ok` says whether its system call succeeds. -/
def Supervisor.run (s : Supervisor) (ok : Bool) : Option Supervisor :=
  match s.pc with
  | .block => some (if ok then { s with pc := .top, blocked := true } else { s with pc := .failed })
  | .top => some { s with pc := .cleared, sysStatus := .idle }
  | .cleared => some { s with pc := .fork, shutdown := false }
  | .fork => some (if ok then { s with pc := .unblock, forks := s.forks + 1 } else { s with pc := .failed })
  | .unblock => some (if ok then { s with pc := .syslock, blocked := false } else { s with pc := .failed })
  | .syslock => some (if ok then { s with pc := .sleep } else { s with pc := .failed })
  | .sleep => some { s with pc := .testChild }
  | .testChild => some { s with pc := if s.sysStatus = .child then .testShutdown else .testReload }
  | .testShutdown => some { s with pc := if s.shutdown then .exited else .reap }
  | .reap => some { s with pc := .top }
  | .testReload => some { s with pc := if s.sysStatus = .reload then .killReload else .testStop }
  | .killReload => some { s with pc := .sleep }
  | .testStop => some { s with pc := if s.sysStatus = .stop then .killStop else .sleep }
  | .killStop => some { s with pc := .setShutdown }
  | .setShutdown => some { s with pc := .sleep, shutdown := true }
  | .failed => none
  | .exited => none

def Supervisor.deliver (s : Supervisor) (sig : Signal) : Option Supervisor :=
  if s.blocked ∨ s.pc = .exited then none else some { s with sysStatus := sig.status }

inductive Event where
  | run (ok : Bool)
  | deliver (sig : Signal)
deriving DecidableEq, Repr

def Supervisor.step (s : Supervisor) : Event → Option Supervisor
  | .run ok => s.run ok
  | .deliver sig => s.deliver sig

/-- From here the supervisor comes to the test for 3 before it can fork. -/
def Pc.waits : Pc → Bool
  | .unblock | .syslock | .sleep | .testChild | .testReload | .killReload | .testStop => true
  | _ => false

def Supervisor.Noted (s : Supervisor) : Prop :=
  s.pc = .killStop ∨ s.pc = .setShutdown ∨ s.pc = .failed ∨ s.pc = .exited ∨
    s.shutdown = true ∧ (s.pc.waits = true ∨ s.pc = .testShutdown)

instance (s : Supervisor) : Decidable s.Noted :=
  inferInstanceAs (Decidable (_ ∨ _))

/-- A shutdown comes to a supervisor that still tests for it, and no other signal comes in
between. -/
def Heeds (s : Supervisor) : Event → Prop
  | .run _ => True
  | .deliver .usr2 => s.pc.waits = true ∨ s.Noted
  | .deliver _ => s.sysStatus = .stop → s.Noted

instance (s : Supervisor) : (e : Event) → Decidable (Heeds s e)
  | .run _ => inferInstanceAs (Decidable True)
  | .deliver .usr2 => inferInstanceAs (Decidable (_ ∨ _))
  | .deliver .usr1 => inferInstanceAs (Decidable (_ → _))
  | .deliver .chld => inferInstanceAs (Decidable (_ → _))

def Supervisor.Quiet (s : Supervisor) : Prop :=
  s.Noted ∨ s.sysStatus = .stop ∧ s.pc.waits = true

section Run
variable {s s' : Supervisor}

theorem Supervisor.Quiet.deliver {sig : Signal} (hq : s.Quiet) (hg : Heeds s (.deliver sig))
    (h : s.deliver sig = some s') : s'.Quiet ∧ s'.forks = s.forks := by
  unfold Supervisor.deliver at h
  split at h
  · cases h
  · cases h
    refine ⟨?_, rfl⟩
    rcases hq with hnoted | ⟨hstop, hwaits⟩
    · exact .inl hnoted
    · cases sig with
      | usr2 => exact .inr ⟨rfl, hwaits⟩
      | usr1 => exact .inl (hg hstop)
      | chld => exact .inl (hg hstop)

theorem Supervisor.run_of_waits {ok : Bool} (hwaits : s.pc.waits = true) (h : s.run ok = some s') :
    (s'.forks = s.forks ∧ s'.shutdown = s.shutdown ∧ s'.sysStatus = s.sysStatus) ∧
      (s'.pc.waits = true ∨ s'.pc = .failed ∨ s'.pc = .killStop ∨
        s'.pc = .testShutdown ∧ s.sysStatus = .child) := by
  unfold Supervisor.run at h
  cases hpc : s.pc with
  | unblock | syslock =>
    rw [hpc] at h
    cases h
    cases ok with
    | false => exact ⟨⟨rfl, rfl, rfl⟩, .inr (.inl rfl)⟩
    | true => exact ⟨⟨rfl, rfl, rfl⟩, .inl rfl⟩
  | sleep | killReload =>
    rw [hpc] at h
    cases h
    exact ⟨⟨rfl, rfl, rfl⟩, .inl rfl⟩
  | testChild =>
    rw [hpc] at h
    cases h
    refine ⟨⟨rfl, rfl, rfl⟩, ?_⟩
    split
    · next hchild => exact .inr (.inr (.inr ⟨rfl, hchild⟩))
    · exact .inl rfl
  | testReload =>
    rw [hpc] at h
    cases h
    refine ⟨⟨rfl, rfl, rfl⟩, .inl ?_⟩
    split <;> rfl
  | testStop =>
    rw [hpc] at h
    cases h
    refine ⟨⟨rfl, rfl, rfl⟩, ?_⟩
    split
    · exact .inr (.inr (.inl rfl))
    · exact .inl rfl
  | block | top | cleared | fork | testShutdown | reap | killStop | setShutdown | failed | exited =>
    rw [hpc] at hwaits
    cases hwaits

theorem Supervisor.run_of_shutdown {ok : Bool} (hset : s.shutdown = true)
    (hpc : s.pc.waits = true ∨ s.pc = .testShutdown) (h : s.run ok = some s') :
    s'.Noted ∧ s'.forks = s.forks := by
  rcases hpc with hwaits | hpc
  · obtain ⟨⟨hforks, hshutdown, -⟩, hpc⟩ := Supervisor.run_of_waits hwaits h
    refine ⟨?_, hforks⟩
    rcases hpc with hpc | hpc | hpc | ⟨hpc, -⟩
    · exact .inr (.inr (.inr (.inr ⟨hshutdown.trans hset, .inl hpc⟩)))
    · exact .inr (.inr (.inl hpc))
    · exact .inl hpc
    · exact .inr (.inr (.inr (.inr ⟨hshutdown.trans hset, .inr hpc⟩)))
  · rw [Supervisor.run, hpc] at h
    cases h
    rw [hset]
    exact ⟨.inr (.inr (.inr (.inl rfl))), rfl⟩

theorem Supervisor.Noted.run {ok : Bool} (hn : s.Noted) (h : s.run ok = some s') :
    s'.Noted ∧ s'.forks = s.forks := by
  rcases hn with hpc | hpc | hpc | hpc | ⟨hset, hpc⟩
  · rw [Supervisor.run, hpc] at h
    cases h
    exact ⟨.inr (.inl rfl), rfl⟩
  · rw [Supervisor.run, hpc] at h
    cases h
    exact ⟨.inr (.inr (.inr (.inr ⟨rfl, .inl rfl⟩))), rfl⟩
  · rw [Supervisor.run, hpc] at h
    cases h
  · rw [Supervisor.run, hpc] at h
    cases h
  · exact Supervisor.run_of_shutdown hset hpc h

theorem Supervisor.run_of_stop {ok : Bool} (hstop : s.sysStatus = .stop) (hwaits : s.pc.waits = true)
    (h : s.run ok = some s') : s'.Quiet ∧ s'.forks = s.forks := by
  obtain ⟨⟨hforks, -, hstatus⟩, hpc⟩ := Supervisor.run_of_waits hwaits h
  refine ⟨?_, hforks⟩
  rcases hpc with hpc | hpc | hpc | ⟨-, hchild⟩
  · exact .inr ⟨hstatus.trans hstop, hpc⟩
  · exact .inl (.inr (.inr (.inl hpc)))
  · exact .inl (.inl hpc)
  · rw [hstop] at hchild
    cases hchild

theorem Supervisor.Quiet.step {e : Event} (hq : s.Quiet) (hg : Heeds s e) (h : s.step e = some s') :
    s'.Quiet ∧ s'.forks = s.forks := by
  cases e with
  | deliver sig => exact hq.deliver hg h
  | run ok =>
    rcases hq with hnoted | ⟨hstop, hwaits⟩
    · obtain ⟨hnoted, hforks⟩ := hnoted.run h
      exact ⟨.inl hnoted, hforks⟩
    · exact Supervisor.run_of_stop hstop hwaits h

end Run

/-- A supervisor that is told to shut down does not fork again if this and the signals after it
come when they are heeded. -/
theorem no_fork_after_shutdown {s t : Supervisor} {events : List Event}
    (hg : Runs.Guarded Supervisor.step Heeds s (.deliver .usr2 :: events))
    (h : (.deliver .usr2 :: events).foldlM Supervisor.step s = some t) : t.forks = s.forks := by
  rw [List.foldlM_cons, Option.bind_eq_bind, Option.bind_eq_some_iff] at h
  obtain ⟨s₁, hs₁, hrest⟩ := h
  have htold : s₁.Quiet ∧ s₁.forks = s.forks := by
    have hheeded := hg.1
    change s.deliver .usr2 = some s₁ at hs₁
    unfold Supervisor.deliver at hs₁
    split at hs₁
    · cases hs₁
    · cases hs₁
      refine ⟨?_, rfl⟩
      rcases hheeded with hwaits | hnoted
      · exact .inr ⟨rfl, hwaits⟩
      · exact .inl hnoted
  have hend := Runs.Guarded.foldlM_invariant (P := fun u : Supervisor => u.Quiet ∧ u.forks = s.forks)
    (fun u e u' hu hgu hstep => by
      obtain ⟨hquiet, hforks⟩ := hu.1.step hgu hstep
      exact ⟨hquiet, hforks.trans hu.2⟩) htold (hg.2 s₁ hs₁) hrest
  exact hend.2

def waiting : Supervisor := ⟨.sleep, .idle, false, false, 1⟩

def firstRound : List Event := List.replicate 6 (.run true)

def orderlyShutdown : List Event :=
  List.replicate 6 (.run true) ++ [.deliver .chld] ++ List.replicate 3 (.run true)

theorem orderly_shutdown_obeyed :
    firstRound.foldlM Supervisor.step .start = some waiting ∧
      Runs.Guarded Supervisor.step Heeds waiting (.deliver .usr2 :: orderlyShutdown) ∧
      (⟨.exited, .child, true, false, 1⟩ : Supervisor).forks = waiting.forks := by
  have hg : Runs.Guarded Supervisor.step Heeds waiting (.deliver .usr2 :: orderlyShutdown) := by
    decide +kernel
  exact ⟨by decide, hg, no_fork_after_shutdown hg (by decide)⟩

def childEndsToo : List Event := .deliver .chld :: List.replicate 7 (.run true)

theorem shutdown_forgotten :
    firstRound.foldlM Supervisor.step .start = some waiting ∧
      ∃ t, (.deliver .usr2 :: childEndsToo).foldlM Supervisor.step waiting = some t ∧
        t.forks ≠ waiting.forks :=
  ⟨by decide, ⟨.unblock, .idle, false, false, 2⟩, by decide, by decide⟩

end Aware.Daemon
