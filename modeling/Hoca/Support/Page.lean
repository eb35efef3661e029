import Hoca.Support.Cron

namespace Hoca.Support

open Semaphores

abbrev PAGESIZE : ℕ := 512

abbrev KERNEL_PAGES : ℕ := 256

abbrev MAXFRAMES : ℕ := 20

-- The page of the device registers, 0x1400 / PAGESIZE.
abbrev START_DEVICE_REG : ℕ := 10

abbrev PAGEMISS : ℕ := 1

-- A page descriptor. The frame number has 15 bits.
structure Pd where
  pd_p : Bool
  pd_frame : ℕ
deriving DecidableEq

def Pd.setFrame (pd : Pd) (frame : ℕ) : Pd := { pd with pd_frame := frame % 2 ^ 15 }

def Pd.setPresent (pd : Pd) : Pd := { pd with pd_p := true }

-- The linker's symbols. The segments of the support level come one after the other
-- and end at the last one.
structure Linker where
  startt1 : ℕ
  etext : ℕ
  startd1 : ℕ
  edata : ℕ
  startb1 : ℕ
  end_ : ℕ
  text : startt1 ≤ etext
  text_data : etext ≤ startd1
  data : startd1 ≤ edata
  data_bss : edata ≤ startb1
  bss : startb1 ≤ end_

structure Frames where
  Tsysstack : Fin 5 → ℕ
  Tmmstack : Fin 5 → ℕ
  Scronstack : ℕ
  pf_start : ℕ

-- Nothing is left when it executes HALT.
def pageinit (l : Linker) : Option Frames :=
  let endframe := l.end_ / PAGESIZE
  if endframe > 220 then none
  else some {
    Tsysstack := fun i => (endframe + 3 + i) * 512 - 2
    Tmmstack := fun i => (endframe + 8 + i) * 512 - 2
    Scronstack := (endframe + 13) * 512 - 2
    pf_start := endframe + 17 }

inductive PageSem where
  | sem_pf
  | sem_mm
deriving DecidableEq

instance : Fintype PageSem :=
  ⟨{.sem_pf, .sem_mm}, fun x => by cases x <;> simp⟩

-- The address of a descriptor that slmmhandler can reach, in the table of segment 1
-- of a T-process or in that of segment 2.
inductive Desc where
  | user (i : Term) (page : Fin 32)
  | shared (page : Fin 32)
deriving DecidableEq

-- Where a T-process is in slmmhandler and, from lockFrames to unlockCounter, in
-- getfreeframe, with the descriptor of the fault, what it has read of pf_ctr, and
-- the frame it got.
inductive MmPc where
  | user
  | lockFrames (d : Desc)
  | lockCounter (d : Desc)
  | readCounter (d : Desc)
  | bumpCounter (d : Desc) (counter : ℕ)
  | unlockCounter (d : Desc) (frame : ℕ)
  | lockDesc (d : Desc) (frame : ℕ)
  | setFrame (d : Desc) (frame : ℕ)
  | setPresent (d : Desc) (frame : ℕ)
  | unlockDesc (d : Desc)
  | terminate
deriving DecidableEq

structure Memory where
  pd : Desc → Pd
  kernel_mode_pd_table : Term → Fin KERNEL_PAGES → Pd
  cron_pd_table : Fin KERNEL_PAGES → Pd
  pf_start : ℕ
  pf_ctr : ℕ
  sems : Sems PageSem Proc
  handler : Term → MmPc

-- A trap of the memory management, with what the hardware stores of it.
inductive MmAction where
  | fault (i : Term) (typ seg pg : ℕ)
  | handle (i : Term)
deriving DecidableEq

namespace Memory

-- What p1 marks as present in segment 0 of a T-process, and of cron.
def kernelPage (l : Linker) (g : Frames) (i : Term) (pgFrame : Fin KERNEL_PAGES) : Pd where
  pd_frame := pgFrame
  pd_p :=
    if pgFrame.val = 2 then true
    else if pgFrame.val = START_DEVICE_REG then true
    else if l.startt1 / PAGESIZE ≤ pgFrame ∧ pgFrame ≤ l.etext / PAGESIZE then true
    else if l.startd1 / PAGESIZE ≤ pgFrame ∧ pgFrame ≤ l.edata / PAGESIZE then true
    else if l.startb1 / PAGESIZE ≤ pgFrame ∧ pgFrame ≤ l.end_ / PAGESIZE then true
    else if pgFrame = g.Tsysstack (i.castLE (by decide)) / PAGESIZE then true
    else if pgFrame = g.Tmmstack (i.castLE (by decide)) / PAGESIZE then true
    else false

def cronPage (l : Linker) (g : Frames) (pgFrame : Fin KERNEL_PAGES) : Pd where
  pd_frame := pgFrame
  pd_p :=
    if pgFrame.val = 2 then true
    else if l.startt1 / PAGESIZE ≤ pgFrame ∧ pgFrame ≤ l.etext / PAGESIZE then true
    else if l.startd1 / PAGESIZE ≤ pgFrame ∧ pgFrame ≤ l.edata / PAGESIZE then true
    else if l.startb1 / PAGESIZE ≤ pgFrame ∧ pgFrame ≤ l.end_ / PAGESIZE then true
    else if g.Scronstack / PAGESIZE ≤ pgFrame ∧ pgFrame ≤ l.end_ / PAGESIZE + 14 then true
    else false

-- getfreeframe as p1 calls it, with nobody else about.
def getfreeframe (s : Memory) : ℕ × Memory :=
  (s.pf_ctr + s.pf_start, { s with
    pf_ctr := s.pf_ctr + 1
    sems := ((s.sems.op .cron (.P .sem_pf)).op .cron (.P .sem_mm)).op .cron (.V .sem_mm) })

-- The page with the bootcode.
def bootPage (s : Memory) (i : Term) : Memory :=
  let (frame, s) := s.getfreeframe
  { s with pd := Function.update s.pd (.user i 31) ((s.pd (.user i 31)).setPresent.setFrame frame) }

def p1 (l : Linker) : Option Memory :=
  (pageinit l).map fun g =>
    (List.finRange MAXTPROC).foldl bootPage {
      pd := fun _ => ⟨false, 0⟩
      kernel_mode_pd_table := kernelPage l g
      cron_pd_table := cronPage l g
      pf_start := g.pf_start
      pf_ctr := 0
      sems := ⟨fun x => if x = .sem_pf then MAXFRAMES else 1, fun _ => []⟩
      handler := fun _ => .user }

-- slmmhandler up to its call of getfreeframe.
def slmmhandler (i : Term) (typ seg pg : ℕ) : MmPc :=
  if typ = PAGEMISS then
    if seg ≠ 1 ∧ seg ≠ 2 then .terminate
    else if h : pg < 32 then .lockFrames (if seg = 1 then .user i ⟨pg, h⟩ else .shared ⟨pg, h⟩)
    else .terminate
  else .terminate

def setHandler (s : Memory) (i : Term) (pc : MmPc) : Memory :=
  { s with handler := Function.update s.handler i pc }

def handle (i : Term) (s : Memory) : Option Memory :=
  match s.handler i with
  | .user => none
  | .lockFrames d => some { s.setHandler i (.lockCounter d) with
      sems := s.sems.op (.term i) (.P .sem_pf) }
  | .lockCounter d => some { s.setHandler i (.readCounter d) with
      sems := s.sems.op (.term i) (.P .sem_mm) }
  | .readCounter d => some (s.setHandler i (.bumpCounter d s.pf_ctr))
  | .bumpCounter d counter => some { s.setHandler i (.unlockCounter d (counter + s.pf_start)) with
      pf_ctr := counter + 1 }
  | .unlockCounter d frame => some { s.setHandler i (.lockDesc d frame) with
      sems := s.sems.op (.term i) (.V .sem_mm) }
  | .lockDesc d frame => some { s.setHandler i (.setFrame d frame) with
      sems := s.sems.op (.term i) (.P .sem_mm) }
  | .setFrame d frame => some { s.setHandler i (.setPresent d frame) with
      pd := Function.update s.pd d ((s.pd d).setFrame frame) }
  | .setPresent d _ => some { s.setHandler i (.unlockDesc d) with
      pd := Function.update s.pd d (s.pd d).setPresent }
  | .unlockDesc _ => some { s.setHandler i .user with
      sems := s.sems.op (.term i) (.V .sem_mm) }
  | .terminate => none

-- Whether the hardware finds the page of a segment missing.
def Missing (s : Memory) (i : Term) (seg pg : ℕ) : Prop :=
  ∀ h : pg < 32, (seg = 1 → (s.pd (.user i ⟨pg, h⟩)).pd_p = false) ∧
    (seg = 2 → (s.pd (.shared ⟨pg, h⟩)).pd_p = false)

instance (s : Memory) (i : Term) (seg pg : ℕ) : Decidable (s.Missing i seg pg) :=
  inferInstanceAs (Decidable (∀ _, _))

def step (a : MmAction) (s : Memory) : Option Memory :=
  match a with
  | .fault i typ seg pg =>
      if s.handler i = .user ∧ (typ = PAGEMISS → s.Missing i seg pg) then
        some (s.setHandler i (slmmhandler i typ seg pg))
      else none
  | .handle i => if Proc.term i ∈ s.sems.queue .sem_pf ∨ Proc.term i ∈ s.sems.queue .sem_mm then none
      else s.handle i

def run : List MmAction → Memory → Option Memory := Runs.run step

end Memory

end Hoca.Support
