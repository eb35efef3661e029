import Hoca.Asl

namespace Hoca

-- How a kernel routine ends: it returns to its caller, or it has loaded a
-- state, put the processor to sleep or halted it and never returns.
inductive Ret (κ : Type) where
  | back (k : κ)
  | gone (k : κ)

def Ret.kernel {κ : Type} : Ret κ → κ
  | .back k => k
  | .gone k => k

namespace Kernel

def LDST (k : Kernel) (s : State) : Kernel := { k with cpu := .running s }

def sleep (k : Kernel) : Kernel := { k with cpu := .asleep }

def halt (k : Kernel) (msg : String) : Kernel := { k with cpu := .halted msg }

def setContext (k : Kernel) (p : ProcId) (c : Context) : Kernel :=
  { k with procTable := Function.update k.procTable p { k.procTable p with toContext := c } }

-- The clock is read once on the way into the kernel and once on the way out.
def updateLastStartTime (k : Kernel) (currentTime : Int) (p : ProcId) : Kernel :=
  k.setContext p { (k.procTable p).toContext with last_start_time := currentTime }

def updateTotalTimeOnProcessor (k : Kernel) (currentTime : Int) (p : ProcId) : Kernel :=
  k.setContext p
    { (k.procTable p).toContext with
      total_processor_time := toLong ((k.procTable p).total_processor_time +
        (currentTime - (k.procTable p).last_start_time)) }

def saveState (k : Kernel) (p : ProcId) (s : State) : Kernel :=
  k.setContext p { (k.procTable p).toContext with p_s := s }

def intschedule (k : Kernel) : Kernel := { k with intervalTimer := some QUANTUM }

-- Whether a process is blocked on one of the devices.
def anyBlocked (L : Layout) (k : Kernel) : List Device → Option Bool
  | [] => some false
  | d :: rest => do
      match ← k.headBlocked (L.device d) with
      | some _ => some true
      | none => anyBlocked L k rest

-- Nothing returns to the instruction after a stop: every interrupt taken with
-- an empty readyQueue ends in schedule.
def intdeadlock (L : Layout) (k : Kernel) : Option Kernel := do
  match ← k.headBlocked L.PSEUDO_CLOCK_SEMAPHORE with
  | some _ => some k.intschedule.sleep
  | none =>
      if ← anyBlocked L k (List.finRange TOTAL_DEVICES) then some k.sleep
      else if k.headASL then some (k.halt "nucleus: deadlock termination")
      else some (k.halt "nucleus: normal termination")

def schedule (L : Layout) (currentTime : Int) (k : Kernel) : Option Kernel := do
  match ← headQueue k.procTable k.readyQueue with
  | some runningProcess =>
      let state := (k.procTable runningProcess).p_s
      some ((k.intschedule.updateLastStartTime currentTime runningProcess).LDST state)
  | none => intdeadlock L k

end Kernel

end Hoca
