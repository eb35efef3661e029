import Hoca.Links
import Hoca.Types

namespace Hoca

namespace ProcTable

def link (t : ProcTable) (p : ProcId) (i : Slot) : ProcLink := (t p).p_link i

def setLink (t : ProcTable) (p : ProcId) (i : Slot) (l : ProcLink) : ProcTable :=
  Function.update t p { t p with p_link := Function.update (t p).p_link i l }

def addQcount (t : ProcTable) (p : ProcId) (n : Int) : ProcTable :=
  Function.update t p { t p with qcount := (t p).qcount + n }

end ProcTable

def headQueue (t : ProcTable) (tp : ProcLink) : Option (Option ProcId) :=
  match tp.next with
  | none => some none
  | some tailProc => do
      let tail_queue_idx ← tp.index
      some (t.link tailProc tail_queue_idx).next

def findAvailableQueueSlot (p : Proc) : Option Slot :=
  (List.finRange SEMMAX).find? fun i => (p.p_link i).next = none

-- A full process calls panic, and a slot index of ENULL runs off p_link: neither returns.
def insertProc (t : ProcTable) (tp : ProcLink) (p : ProcId) : Option (ProcTable × ProcLink) :=
  if (t p).qcount ≥ SEMMAX then none
  else do
    let proc_queue_idx ← findAvailableQueueSlot (t p)
    match tp.next with
    | none =>
        let t := t.setLink p proc_queue_idx ⟨some proc_queue_idx, some p⟩
        some (t.addQcount p 1, ⟨some proc_queue_idx, some p⟩)
    | some tailProc =>
        let tail_queue_idx ← tp.index
        let head := t.link tailProc tail_queue_idx
        let t := t.setLink tailProc tail_queue_idx ⟨some proc_queue_idx, some p⟩
        let t := t.setLink p proc_queue_idx head
        some (t.addQcount p 1, ⟨some proc_queue_idx, some p⟩)

def removeProc (t : ProcTable) (tp : ProcLink) :
    Option (ProcTable × ProcLink × Option ProcId) :=
  match tp.next with
  | none => some (t, tp, none)
  | some tailProc => do
      let tail_queue_idx ← tp.index
      let head := t.link tailProc tail_queue_idx
      if head.next = some tailProc then
        let t := t.setLink tailProc tail_queue_idx .null
        some (t.addQcount tailProc (-1), .null, some tailProc)
      else
        let headProc ← head.next
        let head_queue_idx ← head.index
        let t := t.setLink tailProc tail_queue_idx (t.link headProc head_queue_idx)
        -- the head is cleared at the index of the tail
        let t := t.setLink headProc tail_queue_idx .null
        some (t.addQcount headProc (-1), tp, some headProc)

structure Cursor where
  prevProc : ProcId
  prev_queue_idx : Slot
  currProc : ProcId
  curr_queue_idx : Slot

-- The loop of outProc, entered at a process that is not p. No queue has more
-- entries than procTable has links, which bounds the walk.
def outProcLoop (t : ProcTable) (p head : ProcId) : ℕ → ProcId → Slot → Option (Option Cursor)
  | 0, _, _ => none
  | fuel + 1, currProc, curr_queue_idx => do
      let next := t.link currProc curr_queue_idx
      let nextProc ← next.next
      if nextProc = head then some none
      else
        let next_queue_idx ← next.index
        if nextProc = p then some (some ⟨currProc, curr_queue_idx, nextProc, next_queue_idx⟩)
        else outProcLoop t p head fuel nextProc next_queue_idx

def outProc (t : ProcTable) (tp : ProcLink) (p : ProcId) :
    Option (ProcTable × ProcLink × Option ProcId) :=
  match tp.next with
  | none => some (t, tp, none)
  | some tailProc => do
      let tail_queue_idx ← tp.index
      let head := t.link tailProc tail_queue_idx
      if head.next = some p then removeProc t tp
      else
        let headProc ← head.next
        let head_queue_idx ← head.index
        match ← outProcLoop t p headProc (MAXPROC * SEMMAX) headProc head_queue_idx with
        | none => some (t, tp, none)
        | some c =>
            let tp' := if c.currProc = tailProc then ⟨some c.prev_queue_idx, some c.prevProc⟩ else tp
            let t := t.setLink c.prevProc c.prev_queue_idx (t.link p c.curr_queue_idx)
            let t := t.setLink p c.curr_queue_idx .null
            some (t.addQcount p (-1), tp', some p)

def resetProcess (p : Proc) : Proc :=
  { p with
    qcount := 0
    total_processor_time := 0
    last_start_time := 0
    parent_proc := none
    sibling_proc := none
    children_proc := none
    p_link := fun _ => .null
    semvec := fun _ => none }

namespace Kernel

def allocProc (k : Kernel) : Kernel × Option ProcId :=
  match k.procFree_h with
  | none => (k, none)
  | some p =>
      ({ k with
          procFree_h := (k.procTable.link p 0).next
          procTable := k.procTable.setLink p 0 .null }, some p)

-- The walk of freeProc to the last entry of the free list.
def lastFree (t : ProcTable) : ℕ → ProcId → Option ProcId :=
  Links.lastCell fun proc => (t.link proc 0).next

def freeProc (k : Kernel) (p : ProcId) : Option Kernel :=
  let t : ProcTable := Function.update k.procTable p (resetProcess (k.procTable p))
  match k.procFree_h with
  | none => some { k with procTable := t, procFree_h := some p }
  | some first => do
      let proc ← lastFree t MAXPROC first
      some { k with procTable := t.setLink proc 0 { t.link proc 0 with next := some p } }

-- The trap vectors are cleared here and nowhere else.
def initProc (k : Kernel) : Kernel :=
  { k with
    procFree_h := some 0
    procTable := fun p =>
      { resetProcess (k.procTable p) with
        trap_old_state := fun _ => none
        trap_new_state := fun _ => none
        p_link := Function.update (fun _ => .null) 0
          ⟨none, if h : p.val + 1 < MAXPROC then some ⟨p.val + 1, h⟩ else none⟩ } }

end Kernel

end Hoca
