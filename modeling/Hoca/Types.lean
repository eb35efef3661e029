import Hoca.Long

namespace Hoca

abbrev MAXPROC : ℕ := 20

abbrev SEMMAX : ℕ := 10

abbrev TOTAL_DEVICES : ℕ := 15

abbrev QUANTUM : Int := 5000

abbrev PRIVILEGE : ℕ := 8

abbrev LOCK : Int := -1

abbrev UNLOCK : Int := 1

-- Pointers into procTable and semdTable are table indices. A pointer that may
-- be ENULL is an Option, and reading through ENULL has no result.
abbrev ProcId := Fin MAXPROC

abbrev SemdId := Fin MAXPROC

abbrev Slot := Fin SEMMAX

abbrev Device := Fin TOTAL_DEVICES

-- Literals of the index types, and membership in a list of them.
instance : NeZero MAXPROC := ⟨by decide⟩

instance : NeZero SEMMAX := ⟨by decide⟩

instance : NeZero TOTAL_DEVICES := ⟨by decide⟩

instance : LawfulBEq ProcId := inferInstance

-- Addresses of semaphores and of processor state areas are register values.
abbrev Addr := Int

-- ENULL, the address -1, is not the address of anything.
def toPointer (r : Int) : Option Addr :=
  if r = -1 then none else some r

-- The interrupt levels and the registers.
instance neZero_ps_int : NeZero 8 := ⟨by decide⟩

instance neZero_s_r : NeZero 17 := ⟨by decide⟩

structure Sr where
  ps_t : Bool
  ps_s : Bool
  ps_m : Bool
  ps_int : Fin 8
  ps_x : Bool
  ps_n : Bool
  ps_z : Bool
  ps_o : Bool
  ps_c : Bool
deriving DecidableEq

-- The two bytes of tmp_t. Its four layouts overlap: sys_no and pr_typ are the
-- low byte, in_dno the low three bits.
abbrev Tmp := BitVec 16

def Tmp.sys_no (t : Tmp) : ℕ := t.toNat % 256

def Tmp.in_dno (t : Tmp) : ℕ := t.toNat % 8

def Tmp.setPrTyp (t : Tmp) (typ : ℕ) : Tmp := BitVec.ofNat 16 (t.toNat / 256 * 256 + typ % 256)

structure State where
  s_r : Fin 17 → Int
  s_sr : Sr
  s_tmp : Tmp
  s_crp : Addr
deriving DecidableEq

namespace State

def d2 (s : State) : Int := s.s_r 2

def d3 (s : State) : Int := s.s_r 3

def d4 (s : State) : Int := s.s_r 4

def setD2 (s : State) (v : Int) : State := { s with s_r := Function.update s.s_r 2 v }

def setD3 (s : State) (v : Int) : State := { s with s_r := Function.update s.s_r 3 v }

end State

structure ProcLink where
  index : Option Slot
  next : Option ProcId
deriving DecidableEq

def ProcLink.null : ProcLink := ⟨none, none⟩

inductive TrapType where
  | PROGTRAP
  | MMTRAP
  | SYSTRAP
deriving DecidableEq

instance : Fintype TrapType :=
  ⟨{.PROGTRAP, .MMTRAP, .SYSTRAP}, fun x => by cases x <;> simp⟩

def TrapType.ofCode (r : Int) : Option TrapType :=
  if r = 0 then some .PROGTRAP else if r = 1 then some .MMTRAP
  else if r = 2 then some .SYSTRAP else none

-- The link words of a proc_t: the queues it is on and the semaphores they belong to.
structure QueueLinks where
  p_link : Slot → ProcLink
  qcount : Int
  semvec : Slot → Option Addr
deriving DecidableEq

structure Kin where
  parent_proc : Option ProcId
  sibling_proc : Option ProcId
  children_proc : Option ProcId
deriving DecidableEq

-- The rest of a proc_t. The six trap state pointers are two tables over the trap type.
structure Context where
  p_s : State
  last_start_time : Int
  total_processor_time : Int
  trap_old_state : TrapType → Option Addr
  trap_new_state : TrapType → Option Addr

structure Proc extends QueueLinks, Kin, Context

structure Semd where
  s_next : Option SemdId
  s_prev : Option SemdId
  s_semAdd : Option Addr
  s_link : ProcLink

structure Vpop where
  op : Int
  sem : Addr
deriving DecidableEq

structure CompletionStat where
  status : Int
  length : Int
deriving DecidableEq

-- The two registers of a device that the kernel reads.
structure DevReg where
  d_dadd : Int
  d_stat : Int
deriving DecidableEq

-- A register value as an index of the arrays over the devices.
def deviceOf (n : Int) : Option Device :=
  if h : 0 ≤ n ∧ n < 15 then some ⟨n.toNat, show n.toNat < 15 by omega⟩ else none

-- The device types, each with the number of its first device.
inductive DeviceType where
  | TERMINAL
  | PRINTER
  | DISK
  | FLOPPY
deriving DecidableEq

def DeviceType.first : DeviceType → ℕ
  | .TERMINAL => 0
  | .PRINTER => 5
  | .DISK => 7
  | .FLOPPY => 11

-- What the processor does when the kernel has let go of it.
inductive Cpu where
  | running (s : State)
  | asleep
  | halted (msg : String)
deriving DecidableEq

-- Kernel memory outside the queues, the lists and the process table, and the
-- user memory the kernel reads and writes: semaphore words and state areas.
structure Env where
  sem : Addr → Int
  deviceCompletionStats : Device → CompletionStat
  PSEUDO_CLOCK : Int
  intervalTimer : Option Int
  SYS_TRAP_OLD_STATE : State
  areas : Addr → State
  cpu : Cpu

abbrev ProcTable := ProcId → Proc

structure Kernel extends Env where
  procTable : ProcTable
  procFree_h : Option ProcId
  semdTable : SemdId → Semd
  semdFree_h : Option SemdId
  semd_h : Option SemdId
  readyQueue : ProcLink

-- Where the linker put the semaphores of int.c: an array of four-byte words and
-- one more word outside it.
structure Layout where
  deviceSemaphores : Int
  PSEUDO_CLOCK_SEMAPHORE : Int
  apart : PSEUDO_CLOCK_SEMAPHORE < deviceSemaphores ∨
    deviceSemaphores + 4 * TOTAL_DEVICES ≤ PSEUDO_CLOCK_SEMAPHORE

namespace Layout

def device (L : Layout) (d : Device) : Int := L.deviceSemaphores + 4 * (d.val : Int)

theorem device_injective (L : Layout) : Function.Injective L.device := by
  intro d e h
  simp only [device] at h
  exact Fin.ext (by omega)

theorem device_ne_pseudoClock (L : Layout) (d : Device) :
    L.device d ≠ L.PSEUDO_CLOCK_SEMAPHORE := by
  have hd : d.val < 15 := d.isLt
  have hn : ((TOTAL_DEVICES : ℕ) : Int) = 15 := rfl
  have ha := L.apart
  rw [hn] at ha
  simp only [device]
  omega

-- The semaphores only the kernel itself operates on.
def Reserved (L : Layout) (s : Addr) : Prop :=
  s = L.PSEUDO_CLOCK_SEMAPHORE ∨ ∃ d, s = L.device d

instance (L : Layout) (s : Addr) : Decidable (L.Reserved s) :=
  inferInstanceAs (Decidable (_ ∨ _))

-- The semaphores of the processes.
def user (L : Layout) : Set Addr := {s | ¬ L.Reserved s}

end Layout

end Hoca
