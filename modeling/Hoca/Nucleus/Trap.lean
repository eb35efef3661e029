import Hoca.Nucleus.Int

namespace Hoca.Kernel

-- The switch over the system call number in trapsyshandler.
def syscall (L : Layout) (currentTime : Int) (vpops : Addr → ℕ → Vpop) (sys_no : ℕ)
    (k : Kernel) : Option (Ret Kernel) :=
  match sys_no with
  | 1 => do let k ← createproc k; some (.back k)
  | 2 => do let k ← killproc L currentTime k; some (.gone k)
  | 3 => semop L currentTime vpops k
  | 4 => some (.gone k.notused)
  | 5 => trapstate L currentTime k
  | 6 => do let k ← getcputime k; some (.back k)
  | 7 => waitforpclock L currentTime k
  | 8 => waitforio L currentTime k
  | _ => do let k ← trapsysdefault L currentTime k; some (.gone k)

-- A user mode SYS1-SYS8 becomes a privileged instruction trap; the type
-- overwrites the system call number, but no path reads that again.
def trapsyshandler (L : Layout) (tIn tOut : Int) (vpops : Addr → ℕ → Vpop) (k : Kernel) :
    Option Kernel := do
  let process ← k.running
  let k := k.updateTotalTimeOnProcessor tIn process
  let old := k.SYS_TRAP_OLD_STATE
  if old.s_sr.ps_s = false ∧ old.s_tmp.sys_no < 9 then
    let k := { k with
      SYS_TRAP_OLD_STATE := { old with s_tmp := old.s_tmp.setPrTyp PRIVILEGE } }
    passUp L tOut .PROGTRAP k.SYS_TRAP_OLD_STATE k
  else
    match ← syscall L tOut vpops old.s_tmp.sys_no k with
    | .gone k => some k
    | .back k => some ((k.updateLastStartTime tOut process).LDST k.SYS_TRAP_OLD_STATE)

def trapmmhandler (L : Layout) (currentTime : Int) (old : State) (k : Kernel) : Option Kernel :=
  passUp L currentTime .MMTRAP old k

def trapproghandler (L : Layout) (currentTime : Int) (old : State) (k : Kernel) :
    Option Kernel :=
  passUp L currentTime .PROGTRAP old k

end Hoca.Kernel
