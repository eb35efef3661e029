import Hoca.Forest
import Hoca.Queues
import Hoca.Nucleus.Main

namespace Hoca

-- The kernel without its links: the queues, the free list and the children are
-- lists, and every operation has a result.
structure Sched extends Env where
  queue : QueueId → List Node
  free : List ProcId
  parent : ProcId → Option ProcId
  children : ProcId → List ProcId
  context : ProcId → Context

namespace Sched

variable (L : Layout) (currentTime : Int) (v : Sched)

def running : Option ProcId := (v.queue none).head?.map Prod.fst

-- The processes on a queue, first the one that is served next.
def procs (x : QueueId) : List ProcId := (v.queue x).map Prod.fst

def Waits (p : ProcId) (s : Addr) : Prop := p ∈ v.procs (some s)

def setSem (a : Addr) (n : Int) : Sched := { v with sem := Function.update v.sem a n }

def setContext (p : ProcId) (c : Context) : Sched :=
  { v with context := Function.update v.context p c }

def saveState (p : ProcId) (s : State) : Sched :=
  v.setContext p { v.context p with p_s := s }

def updateLastStartTime (p : ProcId) : Sched :=
  v.setContext p { v.context p with last_start_time := currentTime }

def updateTotalTimeOnProcessor (p : ProcId) : Sched :=
  v.setContext p
    { v.context p with
      total_processor_time := toLong ((v.context p).total_processor_time +
        (currentTime - (v.context p).last_start_time)) }

def LDST (s : State) : Sched := { v with cpu := .running s }

noncomputable def insertReady (p : ProcId) : Sched :=
  { v with queue := enqueue v.queue none p }

def removeReady : Sched := { v with queue := dequeue v.queue none }

noncomputable def insertBlocked (s : Addr) (p : ProcId) : Sched :=
  { v with queue := enqueue v.queue (some s) p }

def removeBlocked (s : Addr) : Sched := { v with queue := dequeue v.queue (some s) }

open Classical in
-- The part of a V that follows the increment: the first waiter leaves the queue
-- and is ready when it was on no other.
noncomputable def wake (s : Addr) : Sched :=
  match (v.procs (some s)).head? with
  | none => v
  | some p =>
      if occupied (v.removeBlocked s).queue p = ∅ then (v.removeBlocked s).insertReady p
      else v.removeBlocked s

open Classical in
noncomputable def intdeadlock : Sched :=
  if v.queue (some L.PSEUDO_CLOCK_SEMAPHORE) ≠ [] then
    { v with intervalTimer := some QUANTUM, cpu := .asleep }
  else if ∃ d, v.queue (some (L.device d)) ≠ [] then { v with cpu := .asleep }
  else if ∃ s, v.queue (some s) ≠ [] then { v with cpu := .halted "nucleus: deadlock termination" }
  else { v with cpu := .halted "nucleus: normal termination" }

noncomputable def schedule : Sched :=
  match v.running with
  | some p =>
      ({ v with intervalTimer := some QUANTUM }.updateLastStartTime currentTime p).LDST
        (v.context p).p_s
  | none => v.intdeadlock L

theorem intdeadlock_frame :
    ∃ cpu timer, v.intdeadlock L = { v with cpu := cpu, intervalTimer := timer } := by
  unfold intdeadlock
  split
  · exact ⟨_, _, rfl⟩
  · split
    · exact ⟨_, v.intervalTimer, rfl⟩
    · split
      · exact ⟨_, v.intervalTimer, rfl⟩
      · exact ⟨_, v.intervalTimer, rfl⟩

-- schedule starts the clock of the first ready process and loads its state.
theorem schedule_frame : ∃ cpu timer context, v.schedule L currentTime =
    { v with cpu := cpu, intervalTimer := timer, context := context } := by
  unfold schedule
  split
  · exact ⟨_, _, _, rfl⟩
  · obtain ⟨cpu, timer, h⟩ := v.intdeadlock_frame L
    exact ⟨cpu, timer, v.context, h⟩

@[simp] theorem schedule_queue : (v.schedule L currentTime).queue = v.queue := by
  obtain ⟨_, _, _, h⟩ := v.schedule_frame L currentTime
  rw [h]

@[simp] theorem schedule_free : (v.schedule L currentTime).free = v.free := by
  obtain ⟨_, _, _, h⟩ := v.schedule_frame L currentTime
  rw [h]

@[simp] theorem schedule_parent : (v.schedule L currentTime).parent = v.parent := by
  obtain ⟨_, _, _, h⟩ := v.schedule_frame L currentTime
  rw [h]

@[simp] theorem schedule_children : (v.schedule L currentTime).children = v.children := by
  obtain ⟨_, _, _, h⟩ := v.schedule_frame L currentTime
  rw [h]

@[simp] theorem schedule_sem : (v.schedule L currentTime).sem = v.sem := by
  obtain ⟨_, _, _, h⟩ := v.schedule_frame L currentTime
  rw [h]

noncomputable def createproc (parentProcess : ProcId) : Sched :=
  match v.free with
  | [] => { v with SYS_TRAP_OLD_STATE := v.SYS_TRAP_OLD_STATE.setD2 (-1) }
  | childProcess :: rest =>
      let v := { v with
        SYS_TRAP_OLD_STATE := v.SYS_TRAP_OLD_STATE.setD2 0
        free := rest
        parent := Function.update v.parent childProcess (some parentProcess)
        children := Function.update v.children parentProcess
          (v.children parentProcess ++ [childProcess]) }
      (v.saveState childProcess (v.areas v.SYS_TRAP_OLD_STATE.d4)).insertReady childProcess

-- Killing a process raises every semaphore it waits on.
def killOne (p : ProcId) : Sched :=
  { v with
    queue := fun x => (v.queue x).filter fun e => e.1 ≠ p
    sem := raise v.sem v.queue p
    free := v.free ++ [p]
    parent := Function.update v.parent p none
    children := Function.update v.children p []
    context := Function.update v.context p
      { v.context p with last_start_time := 0, total_processor_time := 0 } }

def killAll (v : Sched) (doomed : List ProcId) : Sched := doomed.foldl killOne v

def unlinkChild (p : ProcId) : Sched :=
  match v.parent p with
  | none => v
  | some a => { v with children := Function.update v.children a ((v.children a).erase p) }

noncomputable def killproc (p : ProcId) : Sched :=
  ((v.unlinkChild p).removeReady.killAll (Forest.progeny v.children MAXPROC p)).schedule L currentTime

noncomputable def semopStep (o : Vpop) (callingProcess : ProcId) (blocked : Bool) :
    Sched × Bool :=
  let prevSemVal := v.sem o.sem
  let v := v.setSem o.sem (toLong (prevSemVal + o.op))
  if o.op = LOCK then
    if prevSemVal ≤ 0 then
      ((v.saveState callingProcess v.SYS_TRAP_OLD_STATE).insertBlocked o.sem callingProcess, true)
    else (v, blocked)
  else if o.op = UNLOCK ∧ prevSemVal < 0 then (v.wake o.sem, blocked)
  else (v, blocked)

noncomputable def semopLoop : List Vpop → ProcId → Sched → Bool → Sched × Bool
  | [], _, v, blocked => (v, blocked)
  | o :: rest, p, v, blocked =>
      semopLoop rest p (v.semopStep o p blocked).1 (v.semopStep o p blocked).2

noncomputable def semop (ops : List Vpop) (p : ProcId) : Ret Sched :=
  let r := semopLoop ops p v false
  if r.2 then .gone (r.1.removeReady.schedule L currentTime) else .back r.1

-- The kernel after a vector, before schedule.
noncomputable def vectored (ops : List Vpop) (p : ProcId) : Sched :=
  let r := semopLoop ops p v false
  if r.2 then r.1.removeReady else r.1

theorem semop_eq (ops : List Vpop) (p : ProcId) : v.semop L currentTime ops p =
    if (semopLoop ops p v false).2 then .gone ((v.vectored ops p).schedule L currentTime)
    else .back (v.vectored ops p) := by
  unfold semop vectored
  dsimp only
  split <;> rfl

noncomputable def trapstate (p : ProcId) : Ret Sched :=
  match TrapType.ofCode v.SYS_TRAP_OLD_STATE.d2 with
  | none => .back v
  | some trapType =>
      let c := v.context p
      if c.trap_old_state trapType = none ∧ c.trap_new_state trapType = none then
        .back (v.setContext p
          { c with
            trap_old_state := Function.update c.trap_old_state trapType
              (toPointer v.SYS_TRAP_OLD_STATE.d3)
            trap_new_state := Function.update c.trap_new_state trapType
              (toPointer v.SYS_TRAP_OLD_STATE.d4) })
      else .gone (v.killproc L currentTime p)

-- The process goes on in its trap handler.
def handUp (old : State) (p : ProcId) (old_state new_state : Addr) : Sched :=
  { v.updateLastStartTime currentTime p with
    areas := Function.update v.areas old_state old }.LDST
      (Function.update v.areas old_state old new_state)

noncomputable def passUp (trapType : TrapType) (old : State) (p : ProcId) : Sched :=
  match (v.context p).trap_old_state trapType, (v.context p).trap_new_state trapType with
  | some old_state, some new_state => v.handUp currentTime old p old_state new_state
  | _, _ => v.killproc L currentTime p

-- P by the running process on a semaphore that makes it wait.
noncomputable def block (s : Addr) (p : ProcId) : Sched :=
  ((v.setSem s (toLong (v.sem s - 1))).removeReady).insertBlocked s p

noncomputable def wait (s : Addr) (p : ProcId) : Sched := (v.block s p).schedule L currentTime

noncomputable def waitforpclock (p : ProcId) : Sched :=
  (v.saveState p v.SYS_TRAP_OLD_STATE).wait L currentTime L.PSEUDO_CLOCK_SEMAPHORE p

noncomputable def waitforio (d : Device) (p : ProcId) : Ret Sched :=
  if v.sem (L.device d) ≤ 0 then
    .gone ((v.saveState p v.SYS_TRAP_OLD_STATE).wait L currentTime (L.device d) p)
  else
    let stat := v.deviceCompletionStats d
    .back ({ v with
      SYS_TRAP_OLD_STATE := (v.SYS_TRAP_OLD_STATE.setD2 stat.length).setD3 stat.status }.setSem
        (L.device d) (v.sem (L.device d) - 1))

noncomputable def inthandler (d : Device) (reg : DevReg) : Sched :=
  if v.sem (L.device d) = -1 then
    match (v.procs (some (L.device d))).head? with
    | none => v
    | some p =>
        ((v.saveState p (((v.context p).p_s.setD2 reg.d_dadd).setD3 reg.d_stat)).setSem
          (L.device d) 0).wake (L.device d)
  else
    { v with
      deviceCompletionStats :=
        Function.update v.deviceCompletionStats d ⟨reg.d_stat, reg.d_dadd⟩ }.setSem
      (L.device d) (toLong (v.sem (L.device d) + 1))

-- The running process goes behind the other ready ones.
noncomputable def preempt (tIn : Int) (old : State) : Sched :=
  match v.running with
  | none => v
  | some p => ((v.removeReady.updateTotalTimeOnProcessor tIn p).saveState p old).insertReady p

open Classical in
noncomputable def tick : Sched :=
  if v.PSEUDO_CLOCK ≥ 100000 then
    if v.queue (some L.PSEUDO_CLOCK_SEMAPHORE) = [] then { v with PSEUDO_CLOCK := 0 }
    else
      { (v.setSem L.PSEUDO_CLOCK_SEMAPHORE
          (toLong (v.sem L.PSEUDO_CLOCK_SEMAPHORE + 1))).wake
          L.PSEUDO_CLOCK_SEMAPHORE with PSEUDO_CLOCK := 0 }
  else v

noncomputable def intclockhandler (tIn tOut : Int) (old : State) : Sched :=
  (({ v with PSEUDO_CLOCK := v.PSEUDO_CLOCK + QUANTUM }.preempt tIn old).tick L).schedule L tOut

noncomputable def intdevicehandler (old : State) (d : Device) (reg : DevReg) : Sched :=
  let v' := v.inthandler L d reg
  if v.queue none = [] then v'.schedule L currentTime else v'.LDST old

-- The calls of trapsyshandler.
noncomputable def call (e : Event) (p : ProcId) : Ret Sched :=
  match e.old.s_tmp.sys_no with
  | 1 => .back (v.createproc p)
  | 2 => .gone (v.killproc L e.tOut p)
  | 3 => v.semop L e.tOut (Kernel.vector e.vpops v.SYS_TRAP_OLD_STATE) p
  | 4 => .gone { v with cpu := .halted "" }
  | 5 => v.trapstate L e.tOut p
  | 6 => .back { v with
      SYS_TRAP_OLD_STATE := v.SYS_TRAP_OLD_STATE.setD2 (v.context p).total_processor_time }
  | 7 => .gone (v.waitforpclock L e.tOut p)
  | 8 =>
      match deviceOf v.SYS_TRAP_OLD_STATE.d4 with
      | none => .gone v
      | some d => v.waitforio L e.tOut d p
  | _ => .gone (v.passUp L e.tOut .SYSTRAP v.SYS_TRAP_OLD_STATE p)

-- The kernel just after a system call by the process.
def enter (e : Event) (p : ProcId) : Sched :=
  { v with areas := e.areas, SYS_TRAP_OLD_STATE := e.old }.updateTotalTimeOnProcessor e.tIn p

noncomputable def trapsyshandler (e : Event) (p : ProcId) : Sched :=
  if e.old.s_sr.ps_s = false ∧ e.old.s_tmp.sys_no < 9 then
    let old := { e.old with s_tmp := e.old.s_tmp.setPrTyp PRIVILEGE }
    { v.enter e p with SYS_TRAP_OLD_STATE := old }.passUp L e.tOut .PROGTRAP old p
  else
    match (v.enter e p).call L e p with
    | .gone v => v
    | .back v => (v.updateLastStartTime e.tOut p).LDST v.SYS_TRAP_OLD_STATE

-- One kernel entry. A trap has a running process and an interrupt of a device
-- its number.
noncomputable def step (e : Event) : Sched :=
  match e.kind, v.running, e.device with
  | .sys, some p, _ => v.trapsyshandler L e p
  | .mm, some p, _ => { v with areas := e.areas }.passUp L e.tOut .MMTRAP e.old p
  | .prog, some p, _ => { v with areas := e.areas }.passUp L e.tOut .PROGTRAP e.old p
  | .clock, _, _ =>
      { v with areas := e.areas, intervalTimer := none }.intclockhandler L e.tIn e.tOut e.old
  | .device _ reg, _, some d =>
      { v with areas := e.areas }.intdevicehandler L e.tOut e.old d reg
  | _, _, _ => v

end Sched

end Hoca
