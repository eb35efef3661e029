import Hoca.Nucleus.Trap
import Hoca.Runs

namespace Hoca

-- What the hardware enters the kernel for.
inductive Kind where
  | sys
  | mm
  | prog
  | clock
  | device (type : DeviceType) (reg : DevReg)

-- One kernel entry: the state the hardware stored in the old area, what the
-- processes have left in user memory by then, and the two readings of the clock.
structure Event where
  kind : Kind
  old : State
  areas : Addr → State
  vpops : Addr → ℕ → Vpop
  tIn : Int
  tOut : Int

-- The device that interrupts.
def Event.device (e : Event) : Option Device :=
  match e.kind with
  | .device type _ => deviceOf (e.old.s_tmp.in_dno + type.first)
  | _ => none

namespace Event

-- The number of the system call, when the event is one that the kernel serves.
def call (e : Event) : Option ℕ :=
  match e.kind with
  | .sys => if e.old.s_sr.ps_s = false ∧ e.old.s_tmp.sys_no < 9 then none else some e.old.s_tmp.sys_no
  | _ => none

-- The type under which the event is passed up.
def trap (e : Event) : Option TrapType :=
  match e.kind with
  | .sys =>
      if e.old.s_sr.ps_s = false ∧ e.old.s_tmp.sys_no < 9 then some .PROGTRAP
      else if e.old.s_tmp.sys_no = 0 ∨ 8 < e.old.s_tmp.sys_no then some .SYSTRAP else none
  | .mm => some .MMTRAP
  | .prog => some .PROGTRAP
  | _ => none

-- The event ends a process with these trap vectors.
def Ends (e : Event) (c : Context) : Prop :=
  e.call = some 2 ∨
    (e.call = some 5 ∧ ∃ T, TrapType.ofCode e.old.d2 = some T ∧
      ¬ (c.trap_old_state T = none ∧ c.trap_new_state T = none)) ∨
    ∃ T, e.trap = some T ∧ (c.trap_old_state T = none ∨ c.trap_new_state T = none)

def vector (e : Event) : List Vpop := Kernel.vector e.vpops e.old

theorem call_eq {e : Event} (hkind : e.kind = .sys)
    (hmode : ¬ (e.old.s_sr.ps_s = false ∧ e.old.s_tmp.sys_no < 9)) :
    e.call = some e.old.s_tmp.sys_no := by
  simp only [Event.call, hkind, if_neg hmode]

theorem trap_eq {e : Event} (hkind : e.kind = .sys)
    (hmode : ¬ (e.old.s_sr.ps_s = false ∧ e.old.s_tmp.sys_no < 9))
    (hno : e.old.s_tmp.sys_no = 0 ∨ 8 < e.old.s_tmp.sys_no) : e.trap = some .SYSTRAP := by
  simp only [Event.trap, hkind, if_neg hmode, if_pos hno]

end Event

namespace Kernel

-- The initial values in the text of int.c.
def load (L : Layout) (k : Kernel) : Kernel :=
  { k.setSem L.PSEUDO_CLOCK_SEMAPHORE 0 with PSEUDO_CLOCK := 0 }

def intinit (L : Layout) (k : Kernel) : Kernel :=
  { k with sem := fun a => if ∃ d, a = L.device d then 0 else k.sem a }

def init (L : Layout) (k : Kernel) : Kernel :=
  intinit L { k with readyQueue := .null }.initProc.initSemd

-- What neither the loader nor init sets is whatever k holds. p1 is the state
-- main builds for the first process.
def main (L : Layout) (p1 : State) (currentTime : Int) (k : Kernel) : Option Kernel := do
  match ((k.load L).init L).allocProc with
  | (_, none) => none
  | (k, some initialProcess) =>
      let k ← (k.saveState initialProcess p1).insertReady initialProcess
      schedule L currentTime k

-- A trap comes from a running process, an interrupt from an existing device or
-- the clock while the processor is not halted.
def Enabled (k : Kernel) (e : Event) : Bool :=
  match k.cpu with
  | .halted _ => false
  | .running _ =>
      match e.kind with
      | .device _ _ => e.device.isSome
      | _ => true
  | .asleep =>
      match e.kind with
      | .device _ _ => e.device.isSome
      | .clock => true
      | _ => false

def step (L : Layout) (e : Event) (k : Kernel) : Option Kernel :=
  let k := { k with areas := e.areas }
  match e.kind with
  | .sys => trapsyshandler L e.tIn e.tOut e.vpops { k with SYS_TRAP_OLD_STATE := e.old }
  | .mm => trapmmhandler L e.tOut e.old k
  | .prog => trapproghandler L e.tOut e.old k
  | .clock => intclockhandler L e.tIn e.tOut e.old { k with intervalTimer := none }
  | .device .TERMINAL reg => intterminalhandler L e.tOut e.old reg k
  | .device .PRINTER reg => intprinterhandler L e.tOut e.old reg k
  | .device .DISK reg => intdiskhandler L e.tOut e.old reg k
  | .device .FLOPPY reg => intfloppyhandler L e.tOut e.old reg k

-- An entry happens when it can.
def entry (L : Layout) (e : Event) (k : Kernel) : Option Kernel :=
  if k.Enabled e then step L e k else none

def run (L : Layout) : List Event → Kernel → Option Kernel := Runs.run (entry L)

end Kernel

end Hoca
