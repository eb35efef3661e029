import Hoca.Nucleus.Syscall

namespace Hoca.Kernel

def intsemop (L : Layout) (currentTime : Int) (semAddr : Addr) (op : Int) (k : Kernel) :
    Option (Ret Kernel) := do
  let prevSemVal := k.sem semAddr
  let k := k.setSem semAddr (toLong (prevSemVal + op))
  if op = LOCK then
    if prevSemVal ≤ 0 then
      let (k, out) ← k.removeReady
      let process ← out
      let (k, _) ← k.insertBlocked semAddr process
      let k ← schedule L currentTime k
      some (.gone k)
    else some (.back k)
  else if op = UNLOCK then
    if prevSemVal < 0 then
      match ← k.removeBlocked semAddr with
      | (k, none) => some (.back k)
      | (k, some process) =>
          if (k.procTable process).qcount = 0 then
            let k ← k.insertReady process
            some (.back k)
          else some (.back k)
    else some (.back k)
  else some (.back k)

def waitforpclock (L : Layout) (currentTime : Int) (k : Kernel) : Option (Ret Kernel) := do
  let process ← k.running
  let k := k.saveState process k.SYS_TRAP_OLD_STATE
  intsemop L currentTime L.PSEUDO_CLOCK_SEMAPHORE LOCK k

def waitforio (L : Layout) (currentTime : Int) (k : Kernel) : Option (Ret Kernel) := do
  let process ← k.running
  let deviceNumber ← deviceOf k.SYS_TRAP_OLD_STATE.d4
  if k.sem (L.device deviceNumber) ≤ 0 then
    let k := k.saveState process k.SYS_TRAP_OLD_STATE
    intsemop L currentTime (L.device deviceNumber) LOCK k
  else
    let stat := k.deviceCompletionStats deviceNumber
    let k := { k with
      SYS_TRAP_OLD_STATE := (k.SYS_TRAP_OLD_STATE.setD2 stat.length).setD3 stat.status }
    some (.back (k.setSem (L.device deviceNumber) (k.sem (L.device deviceNumber) - 1)))

def inthandler (L : Layout) (currentTime : Int) (deviceIndex : Device) (reg : DevReg)
    (k : Kernel) : Option Kernel := do
  if k.sem (L.device deviceIndex) = -1 then
    let process ← ← k.headBlocked (L.device deviceIndex)
    let p_s := (k.procTable process).p_s
    let k := k.saveState process ((p_s.setD2 reg.d_dadd).setD3 reg.d_stat)
    let r ← intsemop L currentTime (L.device deviceIndex) UNLOCK k
    some r.kernel
  else
    let k := { k with
      deviceCompletionStats :=
        Function.update k.deviceCompletionStats deviceIndex ⟨reg.d_stat, reg.d_dadd⟩ }
    some (k.setSem (L.device deviceIndex) (toLong (k.sem (L.device deviceIndex) + 1)))

-- The interrupted process goes to the tail of readyQueue.
def preempt (k : Kernel) (tIn : Int) (old : State) (process : Option ProcId) : Option Kernel :=
  match process with
  | none => some k
  | some p => do
      let (k, _) ← k.removeReady
      let k := k.updateTotalTimeOnProcessor tIn p
      let k := k.saveState p old
      k.insertReady p

def tickPseudoClock (k : Kernel) (L : Layout) (currentTime : Int) : Option Kernel :=
  if k.PSEUDO_CLOCK ≥ 100000 then do
    match ← k.headBlocked L.PSEUDO_CLOCK_SEMAPHORE with
    | none => some { k with PSEUDO_CLOCK := 0 }
    | some _ => do
        let r ← intsemop L currentTime L.PSEUDO_CLOCK_SEMAPHORE UNLOCK k
        some { r.kernel with PSEUDO_CLOCK := 0 }
  else some k

def intclockhandler (L : Layout) (tIn tOut : Int) (old : State) (k : Kernel) :
    Option Kernel := do
  let process ← headQueue k.procTable k.readyQueue
  let k ← { k with PSEUDO_CLOCK := k.PSEUDO_CLOCK + QUANTUM }.preempt tIn old process
  let k ← k.tickPseudoClock L tOut
  schedule L tOut k

-- The four handlers differ in the device type. The process that was running
-- goes on from the state the interrupt saved.
def intdevicehandler (type : DeviceType) (L : Layout) (currentTime : Int) (old : State)
    (reg : DevReg) (k : Kernel) : Option Kernel := do
  let deviceIndex ← deviceOf (old.s_tmp.in_dno + type.first)
  let process ← headQueue k.procTable k.readyQueue
  let k ← inthandler L currentTime deviceIndex reg k
  match process with
  | some _ => some (k.LDST old)
  | none => schedule L currentTime k

def intterminalhandler := intdevicehandler .TERMINAL

def intprinterhandler := intdevicehandler .PRINTER

def intdiskhandler := intdevicehandler .DISK

def intfloppyhandler := intdevicehandler .FLOPPY

end Hoca.Kernel
