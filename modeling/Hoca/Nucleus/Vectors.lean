import Hoca.Nucleus.Main
import Hoca.Returns

namespace Hoca

variable {L : Layout} {t : ProcTable} {p : ProcId} {e : Event}

-- The trap vectors of the processes: old areas and new areas.
def ProcTable.vectors (t : ProcTable) (p : ProcId) :
    (TrapType → Option Addr) × (TrapType → Option Addr) :=
  ((t p).trap_old_state, (t p).trap_new_state)

section Table

theorem vectors_update {q : Proc} (hold : q.trap_old_state = (t p).trap_old_state)
    (hnew : q.trap_new_state = (t p).trap_new_state) :
    ProcTable.vectors (Function.update t p q) = t.vectors := by
  funext a
  by_cases hap : a = p
  · subst hap
    simp [ProcTable.vectors, hold, hnew]
  · simp [ProcTable.vectors, hap]

@[simp] theorem vectors_setLink (t : ProcTable) (p : ProcId) (i : Slot) (l : ProcLink) :
    (t.setLink p i l).vectors = t.vectors :=
  vectors_update rfl rfl

@[simp] theorem vectors_addQcount (t : ProcTable) (p : ProcId) (n : Int) :
    (t.addQcount p n).vectors = t.vectors :=
  vectors_update rfl rfl

theorem insertProc_vectors (t : ProcTable) (tp : ProcLink) (p : ProcId) :
    Returns (insertProc t tp p) fun r => r.1.vectors = t.vectors := by
  unfold insertProc
  split
  · exact Returns.absent
  · refine Returns.any fun i => ?_
    split
    · exact Returns.value (by simp)
    · exact Returns.any fun j => Returns.value (by simp)

theorem removeProc_vectors (t : ProcTable) (tp : ProcLink) :
    Returns (removeProc t tp) fun r => r.1.vectors = t.vectors := by
  unfold removeProc
  split
  · exact Returns.value rfl
  · refine Returns.any fun i => ?_
    dsimp only
    split
    · exact Returns.value (by simp)
    · exact Returns.any fun a => Returns.any fun j => Returns.value (by simp)

theorem outProc_vectors (t : ProcTable) (tp : ProcLink) (p : ProcId) :
    Returns (outProc t tp p) fun r => r.1.vectors = t.vectors := by
  unfold outProc
  split
  · exact Returns.value rfl
  · refine Returns.any fun i => ?_
    dsimp only
    split
    · exact removeProc_vectors t tp
    · refine Returns.any fun a => Returns.any fun j => Returns.any fun c => ?_
      cases c with
      | none => exact Returns.value rfl
      | some c => exact Returns.value (by simp)

end Table

namespace Kernel

-- A kernel routine that leaves the trap vectors alone.
abbrev Spares (k : Kernel) (x : Option Kernel) : Prop :=
  Returns x fun k' => k'.procTable.vectors = k.procTable.vectors

section Queue

theorem vectors_context {k : Kernel} {p : ProcId} {c : Context}
    (hold : c.trap_old_state = (k.procTable p).trap_old_state)
    (hnew : c.trap_new_state = (k.procTable p).trap_new_state) :
    (k.setContext p c).procTable.vectors = k.procTable.vectors :=
  vectors_update hold hnew

@[simp] theorem vectors_saveState (k : Kernel) (p : ProcId) (s : State) :
    (k.saveState p s).procTable.vectors = k.procTable.vectors :=
  vectors_context rfl rfl

@[simp] theorem vectors_updateLastStartTime (k : Kernel) (n : Int) (p : ProcId) :
    (k.updateLastStartTime n p).procTable.vectors = k.procTable.vectors :=
  vectors_context rfl rfl

@[simp] theorem vectors_updateTotalTime (k : Kernel) (n : Int) (p : ProcId) :
    (k.updateTotalTimeOnProcessor n p).procTable.vectors = k.procTable.vectors :=
  vectors_context rfl rfl

@[simp] theorem vectors_setKin (k : Kernel) (p : ProcId) (f : Kin) :
    (k.setKin p f).procTable.vectors = k.procTable.vectors :=
  vectors_update rfl rfl

@[simp] theorem vectors_addSemaphore (k : Kernel) (s : Addr) (p : ProcId) :
    (k.addSemaphoreToProcessVector s p).procTable.vectors = k.procTable.vectors := by
  unfold addSemaphoreToProcessVector
  split
  · rfl
  · exact vectors_update rfl rfl

@[simp] theorem vectors_removeSemaphore (k : Kernel) (s : Addr) (p : ProcId) :
    (k.removeSemaphoreFromProcessVector s p).procTable.vectors = k.procTable.vectors := by
  unfold removeSemaphoreFromProcessVector
  split
  · rfl
  · exact vectors_update rfl rfl

theorem procTable_deactivate (k : Kernel) (d : SemdId) :
    (k.removeSemaphoreFromActiveList d).procTable = k.procTable := by
  unfold removeSemaphoreFromActiveList
  split
  · rfl
  · split
    · cases (k.semdTable d).s_next <;> rfl
    · dsimp only
      cases (k.semdTable d).s_next <;> split <;> rfl

theorem procTable_allocate (k : Kernel) :
    k.allocateSemaphoreFromFreeList.1.procTable = k.procTable := by
  unfold allocateSemaphoreFromFreeList
  split <;> rfl

theorem activate_spares (k : Kernel) (d : SemdId) :
    k.Spares (k.insertSemaphoreIntoActiveList d) := by
  unfold insertSemaphoreIntoActiveList
  refine Returns.any fun a => ?_
  split
  · exact Returns.value rfl
  · refine Returns.any fun b => ?_
    split
    · exact Returns.value rfl
    · refine Returns.any fun c => ?_
      dsimp only
      split <;> exact Returns.value rfl

theorem insertProcAt_spares (k : Kernel) (d : SemdId) (p : ProcId) :
    k.Spares (k.insertProcAt d p) := by
  unfold insertProcAt
  exact Returns.bind (insertProc_vectors _ _ _) fun r hr => Returns.value hr

theorem insertBlocked_spares (k : Kernel) (s : Addr) (p : ProcId) :
    Returns (k.insertBlocked s p) fun r => r.1.procTable.vectors = k.procTable.vectors := by
  unfold insertBlocked
  refine Returns.any fun o => ?_
  cases o with
  | some d =>
      refine Returns.bind (insertProcAt_spares _ d p) fun m hm => Returns.value ?_
      exact hm.trans (vectors_addSemaphore k s p)
  | none =>
      have halloc := k.procTable_allocate
      dsimp only
      split
      · exact Returns.value rfl
      · next m d heq =>
        rw [heq] at halloc
        refine Returns.bind (insertProcAt_spares _ d p) fun m' hm' => ?_
        refine Returns.bind (activate_spares m' d) fun m'' hm'' => Returns.value ?_
        rw [hm'', hm', vectors_addSemaphore]
        exact congrArg ProcTable.vectors halloc

theorem removeBlocked_spares (k : Kernel) (s : Addr) :
    Returns (k.removeBlocked s) fun r => r.1.procTable.vectors = k.procTable.vectors := by
  unfold removeBlocked
  refine Returns.any fun o => ?_
  cases o with
  | none => exact Returns.value rfl
  | some d =>
      refine Returns.bind (removeProc_vectors _ _) fun r hr => ?_
      obtain ⟨t, tp, process⟩ := r
      have hcut : (if tp.next = none then ({ k with procTable := t }.setSemd d
          { k.semdTable d with s_link := tp }).removeSemaphoreFromActiveList d
          else { k with procTable := t }.setSemd d
            { k.semdTable d with s_link := tp }).procTable = t := by
        split
        · exact procTable_deactivate _ d
        · rfl
      cases process with
      | none => exact Returns.value ((congrArg ProcTable.vectors hcut).trans hr)
      | some a =>
          refine Returns.value ?_
          rw [vectors_removeSemaphore]
          exact (congrArg ProcTable.vectors hcut).trans hr

theorem outBlockedLoop_spares (p : ProcId) (fuel : ℕ) (k : Kernel) (d : Option SemdId)
    (removed : Bool) : Returns (outBlockedLoop p fuel k d removed) fun r =>
      r.1.procTable.vectors = k.procTable.vectors := by
  induction fuel generalizing k d removed with
  | zero => exact Returns.absent
  | succ fuel ih =>
      cases d with
      | none => exact Returns.value rfl
      | some d =>
          refine Returns.any fun s => ?_
          refine Returns.bind (outProc_vectors _ _ _) fun r hr => ?_
          obtain ⟨t, tp, out⟩ := r
          cases out with
          | none => exact (ih _ _ removed).mono fun r' hr' => hr'.trans hr
          | some a =>
              refine (ih _ _ true).mono fun r' hr' => hr'.trans ?_
              split
              · rw [procTable_deactivate, vectors_removeSemaphore]
                exact hr
              · rw [vectors_removeSemaphore]
                exact hr

theorem insertReady_spares (k : Kernel) (p : ProcId) : k.Spares (k.insertReady p) := by
  unfold insertReady
  exact Returns.bind (insertProc_vectors _ _ _) fun r hr => Returns.value hr

theorem removeReady_spares (k : Kernel) :
    Returns k.removeReady fun r => r.1.procTable.vectors = k.procTable.vectors := by
  unfold removeReady
  exact Returns.bind (removeProc_vectors _ _) fun r hr => Returns.value hr

end Queue

section Schedule

theorem intdeadlock_spares (L : Layout) (k : Kernel) : k.Spares (k.intdeadlock L) := by
  unfold intdeadlock
  refine Returns.any fun o => ?_
  cases o with
  | some a => exact Returns.value rfl
  | none =>
      refine Returns.any fun b => ?_
      split
      · exact Returns.value rfl
      · split <;> exact Returns.value rfl

theorem schedule_spares (L : Layout) (currentTime : Int) (k : Kernel) :
    k.Spares (schedule L currentTime k) := by
  unfold schedule
  refine Returns.any fun o => ?_
  cases o with
  | some a => exact Returns.value (vectors_updateLastStartTime k.intschedule currentTime a)
  | none => exact intdeadlock_spares L k

end Schedule

section Kill

theorem vectors_reset (k : Kernel) (p : ProcId) : ProcTable.vectors
    (Function.update k.procTable p (resetProcess (k.procTable p))) = k.procTable.vectors :=
  vectors_update rfl rfl

-- A freed entry keeps its trap vectors.
theorem freeProc_spares (k : Kernel) (p : ProcId) : k.Spares (k.freeProc p) := by
  unfold freeProc
  dsimp only
  split
  · exact Returns.value (vectors_reset k p)
  · refine Returns.any fun a => Returns.value ?_
    rw [vectors_setLink]
    exact vectors_reset k p

theorem killOne_spares (k : Kernel) (p : ProcId) : k.Spares (k.killOne p) := by
  unfold killOne outBlocked
  refine Returns.bind (P := fun r => r.1.procTable.vectors = k.procTable.vectors)
    (Returns.bind (outBlockedLoop_spares p _ k _ false) fun r hr => Returns.value hr) fun r hr => ?_
  obtain ⟨m, out⟩ := r
  cases out with
  | some a => exact (freeProc_spares m p).mono fun m' hm' => hm'.trans hr
  | none =>
      refine Returns.bind (outProc_vectors _ _ _) fun r' hr' => ?_
      exact (freeProc_spares { m with procTable := r'.1, readyQueue := r'.2.1 } p).mono
        fun m' hm' => hm'.trans (hr'.trans hr)

theorem killChildren_spares {kill : Kernel → ProcId → Option Kernel}
    (hkill : ∀ (m : Kernel) (p : ProcId), m.Spares (kill m p)) (fuel : ℕ) (k : Kernel)
    (child : Option ProcId) : k.Spares (killChildren kill fuel k child) := by
  induction fuel generalizing k child with
  | zero => exact Returns.absent
  | succ fuel ih =>
      cases child with
      | none => exact Returns.value rfl
      | some c => exact Returns.bind (hkill k c) fun m hm => (ih m _).mono fun m' hm' => hm'.trans hm

theorem killprocrecurse_spares (depth : ℕ) (k : Kernel) (p : ProcId) :
    k.Spares (killprocrecurse depth k p) := by
  induction depth generalizing k p with
  | zero => exact Returns.absent
  | succ depth ih =>
      exact Returns.bind (killChildren_spares (fun m p => ih m p) _ k _) fun m hm =>
        (killOne_spares m p).mono fun m' hm' => hm'.trans hm

theorem unlinkChild_spares (k : Kernel) (p : ProcId) : k.Spares (k.unlinkChild p) := by
  unfold unlinkChild
  split
  · exact Returns.value rfl
  · split
    · exact Returns.value (by simp)
    · refine Returns.any fun o => ?_
      cases o with
      | none => exact Returns.value rfl
      | some c => exact Returns.value (by simp)

theorem killproc_spares (L : Layout) (currentTime : Int) (k : Kernel) :
    k.Spares (k.killproc L currentTime) := by
  unfold killproc
  refine Returns.any fun p => ?_
  refine Returns.bind (unlinkChild_spares k p) fun m hm => ?_
  refine Returns.bind (removeReady_spares m) fun r hr => ?_
  refine Returns.bind (killprocrecurse_spares _ r.1 p) fun m' hm' => ?_
  exact (schedule_spares L currentTime m').mono fun m'' hm'' =>
    hm''.trans (hm'.trans (hr.trans hm))

end Kill

section Call

-- A system call that leaves the trap vectors alone.
abbrev CallSpares (k : Kernel) (x : Option (Ret Kernel)) : Prop :=
  Returns x fun r => r.kernel.procTable.vectors = k.procTable.vectors

theorem linkChild_spares (k : Kernel) (a c : ProcId) : k.Spares (k.linkChild a c) := by
  unfold linkChild
  split
  · exact Returns.value (by simp)
  · exact Returns.any fun b => Returns.value (by simp)

-- A new process finds the trap vectors of its entry.
theorem createproc_spares (k : Kernel) : k.Spares k.createproc := by
  unfold createproc
  refine Returns.any fun p => ?_
  split
  · next m heq =>
    have hm : m = k := by
      unfold allocProc at heq
      split at heq <;> cases heq
      rfl
    exact Returns.value (by rw [hm])
  · next m c heq =>
    have hm : m.procTable.vectors = k.procTable.vectors := by
      unfold allocProc at heq
      split at heq <;> cases heq
      exact vectors_setLink ..
    refine Returns.bind (linkChild_spares _ p c) fun m' hm' => ?_
    refine (insertReady_spares m' c).mono fun m'' hm'' => hm''.trans (hm'.trans ?_)
    rw [vectors_setKin, vectors_saveState]
    exact hm

theorem semopStep_spares (o : Vpop) (k : Kernel) (b : Bool) :
    Returns (semopStep o k b) fun r => r.1.procTable.vectors = k.procTable.vectors := by
  unfold semopStep
  dsimp only
  split
  · split
    · refine Returns.any fun p => ?_
      refine Returns.bind (insertBlocked_spares _ o.sem p) fun r hr => Returns.value ?_
      rw [vectors_saveState] at hr
      exact hr
    · exact Returns.value rfl
  · split
    · split
      · refine Returns.bind (removeBlocked_spares _ o.sem) fun r hr => ?_
        obtain ⟨m, process⟩ := r
        cases process with
        | none => exact Returns.value hr
        | some p =>
            dsimp only
            split
            · exact Returns.bind (insertReady_spares m p) fun m' hm' => Returns.value (hm'.trans hr)
            · exact Returns.value hr
      · exact Returns.value rfl
    · exact Returns.value rfl

theorem semopLoop_spares (ops : List Vpop) (k : Kernel) (b : Bool) :
    Returns (semopLoop ops k b) fun r => r.1.procTable.vectors = k.procTable.vectors := by
  induction ops generalizing k b with
  | nil => exact Returns.value rfl
  | cons o ops ih =>
      exact Returns.bind (semopStep_spares o k b) fun r hr => (ih r.1 r.2).mono fun r' hr' => hr'.trans hr

theorem semop_spares (L : Layout) (currentTime : Int) (vpops : Addr → ℕ → Vpop) (k : Kernel) :
    k.CallSpares (semop L currentTime vpops k) := by
  unfold semop semopVector
  refine Returns.bind (P := fun r => r.1.procTable.vectors = k.procTable.vectors) ?_ fun r hr => ?_
  · refine Returns.bind (semopLoop_spares _ k false) fun r hr => ?_
    dsimp only
    split
    · exact Returns.bind (removeReady_spares r.1) fun r' hr' => Returns.value (hr'.trans hr)
    · exact Returns.value hr
  · dsimp only
    split
    · exact Returns.bind (schedule_spares L currentTime r.1) fun m hm => Returns.value (hm.trans hr)
    · exact Returns.value hr

theorem intsemop_spares (L : Layout) (currentTime : Int) (s : Addr) (op : Int) (k : Kernel) :
    k.CallSpares (intsemop L currentTime s op k) := by
  unfold intsemop
  dsimp only
  split
  · split
    · refine Returns.bind (removeReady_spares _) fun r hr => ?_
      refine Returns.any fun p => ?_
      refine Returns.bind (insertBlocked_spares r.1 s p) fun r' hr' => ?_
      exact Returns.bind (schedule_spares L currentTime r'.1) fun m hm =>
        Returns.value (hm.trans (hr'.trans hr))
    · exact Returns.value rfl
  · split
    · split
      · refine Returns.bind (removeBlocked_spares _ s) fun r hr => ?_
        obtain ⟨m, process⟩ := r
        cases process with
        | none => exact Returns.value hr
        | some p =>
            dsimp only
            split
            · exact Returns.bind (insertReady_spares m p) fun m' hm' => Returns.value (hm'.trans hr)
            · exact Returns.value hr
      · exact Returns.value rfl
    · exact Returns.value rfl

theorem waitforpclock_spares (L : Layout) (currentTime : Int) (k : Kernel) :
    k.CallSpares (waitforpclock L currentTime k) := by
  unfold waitforpclock
  refine Returns.any fun p => ?_
  refine (intsemop_spares L currentTime _ LOCK _).mono fun r hr => hr.trans ?_
  exact vectors_saveState ..

theorem waitforio_spares (L : Layout) (currentTime : Int) (k : Kernel) :
    k.CallSpares (waitforio L currentTime k) := by
  unfold waitforio
  refine Returns.any fun p => Returns.any fun d => ?_
  split
  · refine (intsemop_spares L currentTime _ LOCK _).mono fun r hr => hr.trans ?_
    exact vectors_saveState ..
  · exact Returns.value rfl

theorem passUp_spares (L : Layout) (currentTime : Int) (T : TrapType) (old : State) (k : Kernel) :
    k.Spares (passUp L currentTime T old k) := by
  unfold passUp
  refine Returns.any fun p => ?_
  split
  · exact Returns.value (vectors_updateLastStartTime k currentTime p)
  · exact killproc_spares L currentTime k

theorem syscall_spares (L : Layout) (currentTime : Int) (vpops : Addr → ℕ → Vpop) {n : ℕ}
    (hn : n ≠ 5) (k : Kernel) : k.CallSpares (syscall L currentTime vpops n k) := by
  unfold syscall
  split
  · exact Returns.bind (createproc_spares k) fun m hm => Returns.value hm
  · exact Returns.bind (killproc_spares L currentTime k) fun m hm => Returns.value hm
  · exact semop_spares L currentTime vpops k
  · exact Returns.value rfl
  · exact absurd rfl hn
  · refine Returns.bind (P := fun m => m.procTable.vectors = k.procTable.vectors) ?_
      fun m hm => Returns.value hm
    exact Returns.any fun p => Returns.value rfl
  · exact waitforpclock_spares L currentTime k
  · exact waitforio_spares L currentTime k
  · exact Returns.bind (passUp_spares L currentTime _ _ k) fun m hm => Returns.value hm

end Call

section Interrupt

theorem inthandler_spares (L : Layout) (currentTime : Int) (d : Device) (reg : DevReg) (k : Kernel) :
    k.Spares (inthandler L currentTime d reg k) := by
  unfold inthandler
  split
  · refine Returns.any fun o => Returns.any fun p => ?_
    refine Returns.bind (intsemop_spares L currentTime _ UNLOCK _) fun r hr => Returns.value ?_
    exact hr.trans (vectors_saveState ..)
  · exact Returns.value rfl

theorem intdevicehandler_spares (type : DeviceType) (L : Layout) (currentTime : Int) (old : State)
    (reg : DevReg) (k : Kernel) : k.Spares (intdevicehandler type L currentTime old reg k) := by
  unfold intdevicehandler
  refine Returns.any fun d => Returns.any fun o => ?_
  refine Returns.bind (inthandler_spares L currentTime d reg k) fun m hm => ?_
  cases o with
  | some p => exact Returns.value hm
  | none => exact (schedule_spares L currentTime m).mono fun m' hm' => hm'.trans hm

theorem preempt_spares (k : Kernel) (tIn : Int) (old : State) (process : Option ProcId) :
    k.Spares (k.preempt tIn old process) := by
  unfold preempt
  split
  · exact Returns.value rfl
  · refine Returns.bind (removeReady_spares k) fun r hr => ?_
    refine (insertReady_spares _ _).mono fun m hm => hm.trans ?_
    rw [vectors_saveState, vectors_updateTotalTime]
    exact hr

theorem tick_spares (k : Kernel) (L : Layout) (currentTime : Int) :
    k.Spares (k.tickPseudoClock L currentTime) := by
  unfold tickPseudoClock
  split
  · refine Returns.any fun o => ?_
    cases o with
    | none => exact Returns.value rfl
    | some p => exact Returns.bind (intsemop_spares L currentTime _ UNLOCK k) fun r hr => Returns.value hr
  · exact Returns.value rfl

theorem intclockhandler_spares (L : Layout) (tIn tOut : Int) (old : State) (k : Kernel) :
    k.Spares (intclockhandler L tIn tOut old k) := by
  unfold intclockhandler
  refine Returns.any fun o => ?_
  refine Returns.bind (preempt_spares _ tIn old o) fun m hm => ?_
  refine Returns.bind (tick_spares m L tOut) fun m' hm' => ?_
  exact (schedule_spares L tOut m').mono fun m'' hm'' => hm''.trans (hm'.trans hm)

end Interrupt

-- SYS5 alone changes the trap vectors.
theorem step_spares (L : Layout) (k : Kernel) (hcall : e.call ≠ some 5) : k.Spares (step L e k) := by
  unfold step
  cases hk : e.kind with
  | sys =>
      dsimp only
      unfold trapsyshandler
      refine Returns.any fun p => ?_
      dsimp only
      split
      · refine (passUp_spares L e.tOut _ _ _).mono fun m hm => hm.trans ?_
        exact vectors_updateTotalTime ..
      · next hmode =>
        have hn : e.old.s_tmp.sys_no ≠ 5 := fun hn => hcall (by rw [Event.call_eq hk hmode, hn])
        refine Returns.bind (syscall_spares L e.tOut e.vpops hn _) fun r hr => ?_
        cases r with
        | gone m => exact Returns.value (hr.trans (vectors_updateTotalTime ..))
        | back m =>
            refine Returns.value ?_
            exact (vectors_updateLastStartTime ..).trans (hr.trans (vectors_updateTotalTime ..))
  | mm => exact passUp_spares L e.tOut _ _ _
  | prog => exact passUp_spares L e.tOut _ _ _
  | clock => exact intclockhandler_spares L e.tIn e.tOut e.old _
  | device type reg => cases type <;> exact intdevicehandler_spares _ L e.tOut e.old reg _

end Kernel

end Hoca
