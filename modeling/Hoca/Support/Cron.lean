import Hoca.Long
import Hoca.Runs
import Hoca.Semaphores

namespace Hoca.Support

open Semaphores

abbrev MAXTPROC : ℕ := 2

abbrev Term := Fin MAXTPROC

instance : NeZero MAXTPROC := ⟨by decide⟩

inductive Proc where
  | cron
  | term (i : Term)
deriving DecidableEq, Fintype

inductive Sem where
  | cron_table_sem
  | wake_up_cron_sem
  | sem (i : Term)
deriving DecidableEq, Fintype

-- Where the root process is: in p1a, which creates the T-processes, and then in
-- cron. Every step from one of these points to the next makes at most one access to
-- the memory it shares with the T-processes: a load, a store or a SYS3.
inductive CronPc where
  | createproc (i : Term)
  | first
  | loop
  | terminateproc
  | gone
  | lockTable
  | scan (i : Term) (awokenProcesses : Bool)
  | marker (i : Term) (awokenProcesses : Bool) (currentTime : Int)
  | compare (i : Term) (awokenProcesses : Bool) (currentTime : Int)
  | reset (i : Term) (awokenProcesses : Bool)
  | wake (i : Term) (awokenProcesses : Bool)
  | unlockTable
  | waitclock
  | asleep
deriving DecidableEq

-- Where a T-process is: in tprocess, in its own program, in delay or in terminate.
-- In delay it has the time of the call and the delay in D4. At raise and at lower it is
-- in the middle of its ++ or -- of active_t_processes, which it has loaded and has yet
-- to store.
inductive TermPc where
  | unborn
  | tprocess
  | raise (active : Int)
  | user
  | delay (called d : Int)
  | lockTable (called d wakeUpTime : Int)
  | write (called d wakeUpTime : Int)
  | block (called d : Int)
  | delayed (called d : Int)
  | terminate
  | lower (active : Int)
  | test
  | notify
  | terminateproc (notified : Bool)
  | gone (notified : Bool)
deriving DecidableEq

structure System where
  clock : Int
  cron : CronPc
  term : Term → TermPc
  sems : Sems Sem Proc
  wakeUpTime : Term → Int
  active_t_processes : Int

-- What happens next: time passes, a process executes its next instructions, or a
-- T-process calls SYS13 or SYS17.
inductive Action where
  | tick
  | cron
  | term (i : Term)
  | delay (i : Term) (d : Int)
  | terminate (i : Term)
deriving DecidableEq

namespace System

-- The state in which p1 loads p1a.
def initial (clock : Int) : System where
  clock := clock
  cron := .createproc 0
  term _ := .unborn
  sems := ⟨fun x => if x = .cron_table_sem then 1 else 0, fun _ => []⟩
  wakeUpTime _ := -1
  active_t_processes := 0

-- The loop of cron over the table, and what follows it.
def next (i : Term) (awokenProcesses : Bool) : CronPc :=
  if h : i.val + 1 < MAXTPROC then .scan ⟨i.val + 1, h⟩ awokenProcesses
  else if awokenProcesses then .loop
  else .unlockTable

def cronStep (s : System) : Option System :=
  match s.cron with
  | .createproc i => some { s with
      term := Function.update s.term i .tprocess
      cron := if h : i.val + 1 < MAXTPROC then .createproc ⟨i.val + 1, h⟩ else .first }
  | .first => some { s with cron := .loop, sems := s.sems.op .cron (.P .wake_up_cron_sem) }
  | .loop => some { s with
      cron := if s.active_t_processes = 0 then .terminateproc else .lockTable }
  | .terminateproc => some { s with cron := .gone }
  | .gone => none
  | .lockTable => some { s with cron := .scan 0 false, sems := s.sems.op .cron (.P .cron_table_sem) }
  | .scan i awokenProcesses => some { s with cron := .marker i awokenProcesses (toLong s.clock) }
  | .marker i awokenProcesses currentTime => some { s with
      cron := if s.wakeUpTime i ≠ -1 then .compare i awokenProcesses currentTime
        else next i awokenProcesses }
  | .compare i awokenProcesses currentTime => some { s with
      cron := if s.wakeUpTime i ≤ currentTime then .reset i awokenProcesses
        else next i awokenProcesses }
  | .reset i awokenProcesses => some { s with
      wakeUpTime := Function.update s.wakeUpTime i (-1)
      cron := .wake i awokenProcesses }
  | .wake i _ => some { s with
      cron := next i true
      sems := s.sems.vector .cron [.V (.sem i), .P .wake_up_cron_sem, .V .cron_table_sem] }
  | .unlockTable => some { s with cron := .waitclock, sems := s.sems.op .cron (.V .cron_table_sem) }
  | .waitclock => some { s with cron := .asleep }
  | .asleep => some { s with cron := .loop }

def setTerm (s : System) (i : Term) (pc : TermPc) : System :=
  { s with term := Function.update s.term i pc }

def termStep (i : Term) (s : System) : Option System :=
  match s.term i with
  | .unborn => none
  | .tprocess => some (s.setTerm i (.raise s.active_t_processes))
  | .raise active => some { s.setTerm i .user with active_t_processes := active + 1 }
  | .user => none
  | .delay called d => some (s.setTerm i (.lockTable called d (toLong (toLong s.clock + d))))
  | .lockTable called d wakeUpTime => some { s.setTerm i (.write called d wakeUpTime) with
      sems := s.sems.op (.term i) (.P .cron_table_sem) }
  | .write called d wakeUpTime => some { s.setTerm i (.block called d) with
      wakeUpTime := Function.update s.wakeUpTime i wakeUpTime }
  | .block called d => some { s.setTerm i (.delayed called d) with
      sems := s.sems.vector (.term i) [.V .cron_table_sem, .P (.sem i), .V .wake_up_cron_sem] }
  | .delayed _ _ => some (s.setTerm i .user)
  | .terminate => some (s.setTerm i (.lower s.active_t_processes))
  | .lower active => some { s.setTerm i .test with active_t_processes := active - 1 }
  | .test => some (s.setTerm i (if s.active_t_processes = 0 then .notify else .terminateproc false))
  | .notify => some { s.setTerm i (.terminateproc true) with
      sems := s.sems.op (.term i) (.V .wake_up_cron_sem) }
  | .terminateproc notified => some (s.setTerm i (.gone notified))
  | .gone _ => none

theorem blocked_iff (m : Sems Sem Proc) (p : Proc) : m.Blocked p ↔
    p ∈ m.queue .cron_table_sem ∨ p ∈ m.queue .wake_up_cron_sem ∨ ∃ i, p ∈ m.queue (.sem i) := by
  constructor
  · rintro ⟨x, hx⟩
    cases x with
    | cron_table_sem => exact Or.inl hx
    | wake_up_cron_sem => exact Or.inr (Or.inl hx)
    | sem i => exact Or.inr (Or.inr ⟨i, hx⟩)
  · rintro (h | h | ⟨i, h⟩)
    · exact ⟨_, h⟩
    · exact ⟨_, h⟩
    · exact ⟨_, h⟩

instance (m : Sems Sem Proc) (p : Proc) : Decidable (m.Blocked p) :=
  decidable_of_iff _ (blocked_iff m p).symm

-- A process takes steps while it waits on no semaphore. The T-processes are
-- children of the root process and end with it.
def step (a : Action) (s : System) : Option System :=
  match a with
  | .tick => some { s with clock := s.clock + 1 }
  | .cron => if s.sems.Blocked .cron then none else s.cronStep
  | .term i => if s.cron = .gone ∨ s.sems.Blocked (.term i) then none else s.termStep i
  | .delay i d =>
      if s.cron ≠ .gone ∧ s.term i = .user then some (s.setTerm i (.delay s.clock d)) else none
  | .terminate i =>
      if s.cron ≠ .gone ∧ s.term i = .user then some (s.setTerm i .terminate) else none

def run : List Action → System → Option System := Runs.run step

end System

end Hoca.Support
