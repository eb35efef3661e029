import Hoca.Procq

namespace Hoca.Kernel

def setSemd (k : Kernel) (d : SemdId) (s : Semd) : Kernel :=
  { k with semdTable := Function.update k.semdTable d s }

def setSem (k : Kernel) (a : Addr) (v : Int) : Kernel :=
  { k with sem := Function.update k.sem a v }

-- The ASL has at most MAXPROC descriptors, and the test at its end is one more round.
def searchASL (T : SemdId → Semd) (semAddr : Addr) : ℕ → Option SemdId → Option (Option SemdId)
  | 0, _ => none
  | _ + 1, none => some none
  | fuel + 1, some d =>
      if (T d).s_semAdd = some semAddr then some (some d)
      else searchASL T semAddr fuel (T d).s_next

def getSemaphoreFromActiveList (k : Kernel) (semAddr : Addr) : Option (Option SemdId) :=
  searchASL k.semdTable semAddr (MAXPROC + 1) k.semd_h

def addSemaphoreToProcessVector (k : Kernel) (semAddr : Addr) (p : ProcId) : Kernel :=
  match (List.finRange SEMMAX).find? fun i => (k.procTable p).semvec i = none with
  | none => k
  | some i =>
      { k with
        procTable := Function.update k.procTable p
          { k.procTable p with
            semvec := Function.update (k.procTable p).semvec i (some semAddr) } }

def removeSemaphoreFromProcessVector (k : Kernel) (semAddr : Addr) (p : ProcId) : Kernel :=
  match (List.finRange SEMMAX).find? fun i => (k.procTable p).semvec i = some semAddr with
  | none => k
  | some i =>
      { k with
        procTable := Function.update k.procTable p
          { k.procTable p with
            semvec := Function.update (k.procTable p).semvec i none } }

def resetSemaphore : Semd := ⟨none, none, none, .null⟩

def allocateSemaphoreFromFreeList (k : Kernel) : Kernel × Option SemdId :=
  match k.semdFree_h with
  | none => (k, none)
  | some d =>
      ({ k with semdFree_h := (k.semdTable d).s_next }.setSemd d resetSemaphore, some d)

def returnSemaphoreToFreeList (k : Kernel) (s : SemdId) : Kernel :=
  { k.setSemd s { resetSemaphore with s_next := k.semdFree_h } with semdFree_h := some s }

-- The loop of insertSemaphoreIntoActiveList: the last descriptor below the new
-- address and the one after it.
def insertionPoint (T : SemdId → Semd) (semAdd : Addr) :
    ℕ → SemdId → Option SemdId → Option (SemdId × Option SemdId)
  | 0, _, _ => none
  | _ + 1, prevSemd, none => some (prevSemd, none)
  | fuel + 1, prevSemd, some currSemd => do
      let currAdd ← (T currSemd).s_semAdd
      if semAdd > currAdd then insertionPoint T semAdd fuel currSemd (T currSemd).s_next
      else some (prevSemd, some currSemd)

def insertSemaphoreIntoActiveList (k : Kernel) (s : SemdId) : Option Kernel := do
  let semAdd ← (k.semdTable s).s_semAdd
  match k.semd_h with
  | none =>
      some { k.setSemd s { k.semdTable s with s_next := none, s_prev := none } with
        semd_h := some s }
  | some head =>
      let headAdd ← (k.semdTable head).s_semAdd
      if semAdd < headAdd then
        let k := k.setSemd s { k.semdTable s with s_next := some head, s_prev := none }
        some { k.setSemd head { k.semdTable head with s_prev := some s } with semd_h := some s }
      else
        let (prevSemd, currSemd) ← insertionPoint k.semdTable semAdd (MAXPROC + 1) head (some head)
        let k := k.setSemd prevSemd { k.semdTable prevSemd with s_next := some s }
        let k := k.setSemd s { k.semdTable s with s_prev := some prevSemd, s_next := currSemd }
        match currSemd with
        | none => some k
        | some curr => some (k.setSemd curr { k.semdTable curr with s_prev := some s })

def removeSemaphoreFromActiveList (k : Kernel) (s : SemdId) : Kernel :=
  match k.semd_h with
  | none => k
  | some head =>
      if s = head then
        let next := (k.semdTable s).s_next
        let k := { k with semd_h := next }
        let k := match next with
          | none => k
          | some n => k.setSemd n { k.semdTable n with s_prev := none }
        k.returnSemaphoreToFreeList s
      else
        let k := match (k.semdTable s).s_next with
          | none => k
          | some n => k.setSemd n { k.semdTable n with s_prev := (k.semdTable s).s_prev }
        let k := match (k.semdTable s).s_prev with
          | none => k
          | some p => k.setSemd p { k.semdTable p with s_next := (k.semdTable s).s_next }
        k.returnSemaphoreToFreeList s

-- insertProc on the queue of a descriptor.
def insertProcAt (k : Kernel) (d : SemdId) (p : ProcId) : Option Kernel := do
  let (t, tp) ← insertProc k.procTable (k.semdTable d).s_link p
  some ({ k with procTable := t }.setSemd d { k.semdTable d with s_link := tp })

-- TRUE means that no descriptor was free and nothing was changed.
def insertBlocked (k : Kernel) (semAddr : Addr) (p : ProcId) : Option (Kernel × Bool) := do
  match ← k.getSemaphoreFromActiveList semAddr with
  | some d =>
      let k ← (k.addSemaphoreToProcessVector semAddr p).insertProcAt d p
      some (k, false)
  | none =>
      match k.allocateSemaphoreFromFreeList with
      | (_, none) => some (k, true)
      | (k, some d) =>
          let k := k.setSemd d { k.semdTable d with s_semAdd := some semAddr }
          let k ← (k.addSemaphoreToProcessVector semAddr p).insertProcAt d p
          let k ← k.insertSemaphoreIntoActiveList d
          some (k, false)

def removeBlocked (k : Kernel) (semAddr : Addr) : Option (Kernel × Option ProcId) := do
  match ← k.getSemaphoreFromActiveList semAddr with
  | none => some (k, none)
  | some d =>
      let (t, tp, process) ← removeProc k.procTable (k.semdTable d).s_link
      let k := { k with procTable := t }.setSemd d { k.semdTable d with s_link := tp }
      let k := if tp.next = none then k.removeSemaphoreFromActiveList d else k
      match process with
      | none => some (k, none)
      | some p => some (k.removeSemaphoreFromProcessVector semAddr p, some p)

-- The loop of outBlocked over the ASL. A descriptor on the ASL has an address.
def outBlockedLoop (p : ProcId) : ℕ → Kernel → Option SemdId → Bool → Option (Kernel × Bool)
  | 0, _, _, _ => none
  | _ + 1, k, none, removed => some (k, removed)
  | fuel + 1, k, some d, removed => do
      let semAddr ← (k.semdTable d).s_semAdd
      let nextSemaphoreDescriptor := (k.semdTable d).s_next
      let (t, tp, out) ← outProc k.procTable (k.semdTable d).s_link p
      let k := { k with procTable := t }.setSemd d { k.semdTable d with s_link := tp }
      match out with
      | none => outBlockedLoop p fuel k nextSemaphoreDescriptor removed
      | some _ =>
          let k := k.setSem semAddr (toLong (k.sem semAddr + 1))
          let k := k.removeSemaphoreFromProcessVector semAddr p
          let k := if tp.next = none then k.removeSemaphoreFromActiveList d else k
          outBlockedLoop p fuel k nextSemaphoreDescriptor true

def outBlocked (k : Kernel) (p : ProcId) : Option (Kernel × Option ProcId) := do
  let (k, processRemovedAtLeastOnce) ← outBlockedLoop p (MAXPROC + 1) k k.semd_h false
  some (k, if processRemovedAtLeastOnce then some p else none)

def headBlocked (k : Kernel) (semAddr : Addr) : Option (Option ProcId) := do
  match ← k.getSemaphoreFromActiveList semAddr with
  | none => some none
  | some d => headQueue k.procTable (k.semdTable d).s_link

def initSemd (k : Kernel) : Kernel :=
  { k with
    semdFree_h := some 0
    semd_h := none
    semdTable := fun d =>
      { k.semdTable d with
        s_prev := if 0 < d.val then some ⟨d.val - 1, by omega⟩ else none
        s_next := if h : d.val + 1 < MAXPROC then some ⟨d.val + 1, h⟩ else none } }

def headASL (k : Kernel) : Bool := k.semd_h.isSome

end Hoca.Kernel
