import Hoca.Nucleus.Schedule

namespace Hoca.Kernel

def setKin (k : Kernel) (p : ProcId) (f : Kin) : Kernel :=
  { k with procTable := Function.update k.procTable p { k.procTable p with toKin := f } }

-- The process that was interrupted: the head of readyQueue.
def running (k : Kernel) : Option ProcId := do
  ← headQueue k.procTable k.readyQueue

-- The last of the siblings from a child on.
def lastSibling (t : ProcTable) : ℕ → ProcId → Option ProcId :=
  Links.lastCell fun p => (t p).sibling_proc

def insertReady (k : Kernel) (p : ProcId) : Option Kernel := do
  let (t, tp) ← insertProc k.procTable k.readyQueue p
  some { k with procTable := t, readyQueue := tp }

def removeReady (k : Kernel) : Option (Kernel × Option ProcId) := do
  let (t, tp, p) ← removeProc k.procTable k.readyQueue
  some ({ k with procTable := t, readyQueue := tp }, p)

-- The new child is the last of its siblings.
def linkChild (k : Kernel) (parentProcess childProcess : ProcId) : Option Kernel :=
  match (k.procTable parentProcess).children_proc with
  | none =>
      some (k.setKin parentProcess
        { (k.procTable parentProcess).toKin with children_proc := some childProcess })
  | some child => do
      let siblingProces ← lastSibling k.procTable MAXPROC child
      some (k.setKin siblingProces
        { (k.procTable siblingProces).toKin with sibling_proc := some childProcess })

def createproc (k : Kernel) : Option Kernel := do
  let parentProcess ← k.running
  match k.allocProc with
  | (k, none) => some { k with SYS_TRAP_OLD_STATE := k.SYS_TRAP_OLD_STATE.setD2 (-1) }
  | (k, some childProcess) =>
      let k := { k with SYS_TRAP_OLD_STATE := k.SYS_TRAP_OLD_STATE.setD2 0 }
      let k := k.saveState childProcess (k.areas k.SYS_TRAP_OLD_STATE.d4)
      let k := k.setKin childProcess
        { (k.procTable childProcess).toKin with parent_proc := some parentProcess }
      let k ← k.linkChild parentProcess childProcess
      k.insertReady childProcess

-- The loop of killprocrecurse over the children; the next one is read before
-- the child is freed.
def killChildren (kill : Kernel → ProcId → Option Kernel) :
    ℕ → Kernel → Option ProcId → Option Kernel
  | 0, _, _ => none
  | _ + 1, k, none => some k
  | fuel + 1, k, some childProcess => do
      let nextChildProcess := (k.procTable childProcess).sibling_proc
      let k ← kill k childProcess
      killChildren kill fuel k nextChildProcess

-- Takes a process off the queues it is on and frees its entry.
def killOne (k : Kernel) (process : ProcId) : Option Kernel := do
  let (k, out) ← k.outBlocked process
  let k ← match out with
    | some _ => some k
    | none => do
        let (t, tp, _) ← outProc k.procTable k.readyQueue process
        some { k with procTable := t, readyQueue := tp }
  k.freeProc process

-- The first argument bounds the depth of the recursion.
def killprocrecurse : ℕ → Kernel → ProcId → Option Kernel
  | 0, _, _ => none
  | depth + 1, k, process => do
      let k ← killChildren (fun k p => killprocrecurse depth k p) (MAXPROC + 1) k
        (k.procTable process).children_proc
      k.killOne process

-- The child whose sibling_proc is the process.
def prevSibling (t : ProcTable) (process : ProcId) : ℕ → Option ProcId → Option (Option ProcId)
  | 0, _ => none
  | _ + 1, none => some none
  | fuel + 1, some child =>
      if (t child).sibling_proc = some process then some (some child)
      else prevSibling t process fuel (t child).sibling_proc

-- Cuts the process out of its parent's children.
def unlinkChild (k : Kernel) (process : ProcId) : Option Kernel :=
  match (k.procTable process).parent_proc with
  | none => some k
  | some parentProcess =>
      if (k.procTable parentProcess).children_proc = some process then
        some (k.setKin parentProcess
          { (k.procTable parentProcess).toKin with
            children_proc := (k.procTable process).sibling_proc })
      else do
        match ← prevSibling k.procTable process (MAXPROC + 1)
            (k.procTable parentProcess).children_proc with
        | none => some k
        | some child =>
            some (k.setKin child
              { (k.procTable child).toKin with
                sibling_proc := (k.procTable process).sibling_proc })

def killproc (L : Layout) (currentTime : Int) (k : Kernel) : Option Kernel := do
  let process ← k.running
  let k ← k.unlinkChild process
  let (k, _) ← k.removeReady
  let k ← killprocrecurse MAXPROC k process
  schedule L currentTime k

-- One round of the loop of semop. The flag is callingProcessBlocked.
def semopStep (o : Vpop) (k : Kernel) (callingProcessBlocked : Bool) :
    Option (Kernel × Bool) := do
  let prevSemVal := k.sem o.sem
  let k := k.setSem o.sem (toLong (prevSemVal + o.op))
  if o.op = LOCK then
    if prevSemVal ≤ 0 then
      let callingProcess ← k.running
      let k := k.saveState callingProcess k.SYS_TRAP_OLD_STATE
      let (k, _) ← k.insertBlocked o.sem callingProcess
      some (k, true)
    else some (k, callingProcessBlocked)
  else if o.op = UNLOCK then
    if prevSemVal < 0 then
      match ← k.removeBlocked o.sem with
      | (k, none) => some (k, callingProcessBlocked)
      | (k, some process) =>
          if (k.procTable process).qcount = 0 then
            let k ← k.insertReady process
            some (k, callingProcessBlocked)
          else some (k, callingProcessBlocked)
    else some (k, callingProcessBlocked)
  else some (k, callingProcessBlocked)

def semopLoop : List Vpop → Kernel → Bool → Option (Kernel × Bool)
  | [], k, callingProcessBlocked => some (k, callingProcessBlocked)
  | o :: rest, k, callingProcessBlocked => do
      let (k, callingProcessBlocked) ← semopStep o k callingProcessBlocked
      semopLoop rest k callingProcessBlocked

-- semop up to the call of schedule: the flag says whether it is called.
def semopVector (semOperations : List Vpop) (k : Kernel) : Option (Kernel × Bool) := do
  let (k, callingProcessBlocked) ← semopLoop semOperations k false
  if callingProcessBlocked then
    let (k, _) ← k.removeReady
    some (k, true)
  else some (k, false)

-- The vector of the call: D3 operations from the address in D4.
def vector (vpops : Addr → ℕ → Vpop) (s : State) : List Vpop :=
  (List.range s.d3.toNat).map (vpops s.d4)

def semop (L : Layout) (currentTime : Int) (vpops : Addr → ℕ → Vpop) (k : Kernel) :
    Option (Ret Kernel) := do
  let (k, callingProcessBlocked) ← semopVector (vector vpops k.SYS_TRAP_OLD_STATE) k
  if callingProcessBlocked then
    let k ← schedule L currentTime k
    some (.gone k)
  else some (.back k)

def notused (k : Kernel) : Kernel := k.halt ""

-- A code that is no trap type falls through the switch.
def trapstate (L : Layout) (currentTime : Int) (k : Kernel) : Option (Ret Kernel) := do
  let process ← k.running
  let c := (k.procTable process).toContext
  match TrapType.ofCode k.SYS_TRAP_OLD_STATE.d2 with
  | none => some (.back k)
  | some trapType =>
      if c.trap_old_state trapType = none ∧ c.trap_new_state trapType = none then
        some (.back (k.setContext process
          { c with
            trap_old_state := Function.update c.trap_old_state trapType
              (toPointer k.SYS_TRAP_OLD_STATE.d3)
            trap_new_state := Function.update c.trap_new_state trapType
              (toPointer k.SYS_TRAP_OLD_STATE.d4) }))
      else do
        let k ← killproc L currentTime k
        some (.gone k)

def getcputime (k : Kernel) : Option Kernel := do
  let process ← k.running
  some { k with
    SYS_TRAP_OLD_STATE :=
      k.SYS_TRAP_OLD_STATE.setD2 (k.procTable process).total_processor_time }

-- Passes a trap up to the areas of the running process, or kills it.
def passUp (L : Layout) (currentTime : Int) (trapType : TrapType) (old : State) (k : Kernel) :
    Option Kernel := do
  let process ← k.running
  match (k.procTable process).trap_old_state trapType,
      (k.procTable process).trap_new_state trapType with
  | some old_state, some new_state =>
      let k := k.updateLastStartTime currentTime process
      let k := { k with areas := Function.update k.areas old_state old }
      some (k.LDST (k.areas new_state))
  | _, _ => killproc L currentTime k

def trapsysdefault (L : Layout) (currentTime : Int) (k : Kernel) : Option Kernel :=
  passUp L currentTime .SYSTRAP k.SYS_TRAP_OLD_STATE k

end Hoca.Kernel
