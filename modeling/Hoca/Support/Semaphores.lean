import Hoca.Semaphores
import Hoca.Conservation

namespace Hoca

open Semaphores

variable {L : Layout} {U W : Set Addr} {p : ProcId} {e : Event} {v : Sched} {o : Vpop} {ops : List Vpop}

def Vpop.toOp (o : Vpop) : Op Addr := if o.op = LOCK then .P o.sem else .V o.sem

theorem Vpop.adds_toOp (ho : o.op = LOCK ∨ o.op = UNLOCK) : o.toOp.adds = o.op := by
  rcases ho with hl | hu
  · rw [toOp, if_pos hl, Op.adds, hl]
  · have hl : o.op ≠ LOCK := by
      rw [hu]
      decide
    rw [toOp, if_neg hl, Op.adds, hu]

theorem Vpop.sem_toOp (o : Vpop) : o.toOp.sem = o.sem := by
  rw [toOp]
  split <;> rfl

namespace Sched

-- The words of the semaphores and who waits on them.
def sems (v : Sched) : Sems Addr ProcId := ⟨v.sem, fun s => v.procs (some s)⟩

-- An operation that takes no word of `U` out of the range is one on counting semaphores.
theorem sems_semopStep (ho : o.op = LOCK ∨ o.op = UNLOCK)
    (hfit : o.sem ∈ U → InRange (v.sem o.sem + o.op)) (p : ProcId) (b : Bool) :
    Sems.Agree U (v.semopStep o p b).1.sems (v.sems.op p o.toOp) := by
  have hword : ∀ s ∈ U, (v.semopStep o p b).1.sem s = (v.sems.op p o.toOp).word s := by
    intro s hs
    rw [sem_semopStep, Sems.word_op, o.sem_toOp, Vpop.adds_toOp ho]
    by_cases heq : o.sem = s
    · subst heq
      rw [Function.update_self, if_pos rfl, (hfit hs).toLong_eq]
      rfl
    · rw [Function.update_of_ne (Ne.symm heq), if_neg heq, add_zero]
      rfl
  have hqueue : ∀ s, (v.semopStep o p b).1.procs (some s) = (v.sems.op p o.toOp).queue s := by
    intro s
    by_cases hs : s = o.sem
    · subst hs
      have hsem : v.sems.word o.sem = v.sem o.sem := rfl
      rcases ho with hl | hu
      · rw [Vpop.toOp, if_pos hl, Sems.queue_P, hsem]
        by_cases hz : v.sem o.sem ≤ 0
        · rw [semopStep_lock hl hz, if_pos hz, procs_insertBlocked, if_pos rfl]
          rfl
        · have hneg : ¬ v.sem o.sem < 0 := fun hc => hz (le_of_lt hc)
          rw [semopStep_word (fun hc => hz hc.2) fun hc => hneg hc.2, if_neg hz]
          rfl
      · have hl : o.op ≠ LOCK := by
          rw [hu]
          decide
        rw [Vpop.toOp, if_neg hl, Sems.queue_V, hsem]
        by_cases hz : v.sem o.sem < 0
        · rw [semopStep_unlock hu hz, if_pos hz, procs_wake_some, if_pos rfl]
          rfl
        · rw [semopStep_word (fun hc => hl hc.1) fun hc => hz hc.2, if_neg hz]
          rfl
    · rw [(v.semopStep_frame o p b hs).2, Sems.queue_op_of_ne]
      · rfl
      · rw [o.sem_toOp]
        exact Ne.symm hs
  exact fun s hs => ⟨hword s hs, hqueue s⟩

theorem sems_semopLoop (hops : ∀ o ∈ ops, o.op = LOCK ∨ o.op = UNLOCK) (p : ProcId)
    (hfit : Ranged U v.sem ops) (b : Bool) :
    Sems.Agree U (semopLoop ops p v b).1.sems (v.sems.vector p (ops.map Vpop.toOp)) := by
  induction ops generalizing v b with
  | nil => exact fun s _ => ⟨rfl, rfl⟩
  | cons o ops ih =>
      have hone := sems_semopStep (hops o List.mem_cons_self) hfit.1 p b
      have hrest := hfit.2
      rw [← sem_semopStep v o p b] at hrest
      exact (ih (fun o' ho' => hops o' (List.mem_cons_of_mem o ho')) hrest _).trans
        (hone.vector p (ops.map Vpop.toOp))

theorem sems_step_vector (hr : v.running = some p) (hcall : e.call = some 3)
    (hops : ∀ o ∈ e.vector, o.op = LOCK ∨ o.op = UNLOCK) (hfit : Ranged U v.sem e.vector) :
    Sems.Agree U (v.step L e).sems (v.sems.vector p (e.vector.map Vpop.toOp)) := by
  have hs := same_step_vector (L := L) hr hcall
  have hsem : ((v.enter e p).vectored e.vector p).sems =
      (semopLoop e.vector p (v.enter e p) false).1.sems := by
    have hprocs := vectored_procs e.vector p (v.enter e p)
    have hword : ((v.enter e p).vectored e.vector p).sem =
        (semopLoop e.vector p (v.enter e p) false).1.sem := by
      unfold vectored
      dsimp only
      split <;> rfl
    simp only [sems, hprocs, hword]
  have hloop := sems_semopLoop (v := v.enter e p) hops p hfit false
  rw [← hsem] at hloop
  have hstep : (v.step L e).sems = ((v.enter e p).vectored e.vector p).sems := by
    simp only [sems, hs.sem, hs.procs]
  rw [hstep]
  exact hloop

end Sched

namespace Kernel

variable {k k' : Kernel}

-- SYS3 is a vector of operations on counting semaphores in one step.
theorem Tended.sems_entry (h : k.Tended L) (hU : ∀ s ∈ U, ¬ L.Reserved s)
    (hd : Disciplined U e) (hfit : k.WordsFit W e) (hcall : e.call = some 3)
    (hr : k.running = some p) (hrun : Kernel.entry L e k = some k') :
    Sems.Agree W k'.abs.sems (k.abs.sems.vector p (e.vector.map Vpop.toOp)) := by
  rw [(h.entry_eq (h.orderly hU hd) hrun).2]
  exact Sched.sems_step_vector (h.running_eq.symm.trans hr) hcall (hd.vector hcall).op
    (hfit hcall)

-- A live process is ready exactly when it waits on no semaphore.
theorem Tended.ready_iff (h : k.Tended L) (hp : p ∉ k.abs.free) :
    p ∈ k.abs.procs none ↔ ¬ k.abs.sems.Blocked p := by
  rw [h.placed.ready_iff h.wf.tidy.neat hp, ← not_exists]
  rfl

end Kernel

end Hoca
