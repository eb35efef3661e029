import Hoca.Sched.Preserve

namespace Hoca

-- The semaphore on which a call of the kernel's own P operates.
def Kernel.Waits (L : Layout) (e : Event) (s : Addr) : Prop :=
  (e.call = some 7 ∧ s = L.PSEUDO_CLOCK_SEMAPHORE) ∨
    (e.call = some 8 ∧ ∃ d, deviceOf e.old.d4 = some d ∧ s = L.device d)

namespace Sched

variable {L : Layout} {v v' u w : Sched} {p : ProcId} {e : Event} {off : Option ProcId}
  {currentTime : Int}

-- The same queues, semaphores, tree and completions, and the same saved states
-- but for the process on the processor.
structure Same (off : Option ProcId) (v v' : Sched) : Prop where
  queue : v'.queue = v.queue
  free : v'.free = v.free
  parent : v'.parent = v.parent
  children : v'.children = v.children
  sem : v'.sem = v.sem
  stats : v'.deviceCompletionStats = v.deviceCompletionStats
  p_s : ∀ a, some a ≠ off → (v'.context a).p_s = (v.context a).p_s

section Same

theorem Same.refl (off : Option ProcId) (v : Sched) : Same off v v :=
  ⟨rfl, rfl, rfl, rfl, rfl, rfl, fun _ _ => rfl⟩

theorem Same.trans (h : Same off v u) (h' : Same off u w) : Same off v w where
  queue := h'.queue.trans h.queue
  free := h'.free.trans h.free
  parent := h'.parent.trans h.parent
  children := h'.children.trans h.children
  sem := h'.sem.trans h.sem
  stats := h'.stats.trans h.stats
  p_s a ha := (h'.p_s a ha).trans (h.p_s a ha)

theorem Same.procs (h : Same off v u) (x : QueueId) : u.procs x = v.procs x := by
  rw [Sched.procs, Sched.procs, h.queue]

theorem Same.running (h : Same off v u) : u.running = v.running := by
  rw [Sched.running, Sched.running, h.queue]

-- One context may change, but for the saved state.
theorem Same.setContext {c : Context} (h : Same off v u) (p : ProcId)
    (hc : some p ≠ off → c.p_s = (u.context p).p_s) : Same off v (u.setContext p c) := by
  refine ⟨h.queue, h.free, h.parent, h.children, h.sem, h.stats, fun a ha => ?_⟩
  rw [← h.p_s a ha]
  by_cases hap : a = p
  · subst hap
    simpa [Sched.setContext] using hc ha
  · simp [Sched.setContext, hap]

theorem same_saveState (v : Sched) (p : ProcId) (s : State) : Same (some p) v (v.saveState p s) :=
  (Same.refl _ v).setContext p fun hne => absurd rfl hne

theorem same_schedule (off : Option ProcId) (v : Sched) (currentTime : Int) :
    Same off v (v.schedule L currentTime) := by
  unfold schedule
  split
  · next p _ =>
    have htimer : Same off v { v with intervalTimer := some QUANTUM } :=
      ⟨rfl, rfl, rfl, rfl, rfl, rfl, fun _ _ => rfl⟩
    have htime := htimer.setContext (c := { v.context p with last_start_time := currentTime }) p
      fun _ => rfl
    exact ⟨htime.queue, htime.free, htime.parent, htime.children, htime.sem, htime.stats, htime.p_s⟩
  · obtain ⟨cpu, timer, hv⟩ := v.intdeadlock_frame L
    rw [hv]
    exact ⟨rfl, rfl, rfl, rfl, rfl, rfl, fun _ _ => rfl⟩

theorem same_enter (off : Option ProcId) (v : Sched) (e : Event) (p : ProcId) :
    Same off v (v.enter e p) := by
  have hareas : Same off v { v with areas := e.areas, SYS_TRAP_OLD_STATE := e.old } :=
    ⟨rfl, rfl, rfl, rfl, rfl, rfl, fun _ _ => rfl⟩
  exact hareas.setContext p fun _ => rfl

theorem same_back (off : Option ProcId) (v : Sched) (tOut : Int) (p : ProcId) (s : State) :
    Same off v ((v.updateLastStartTime tOut p).LDST s) :=
  have h : Same off v (v.updateLastStartTime tOut p) := (Same.refl off v).setContext p fun _ => rfl
  ⟨h.queue, h.free, h.parent, h.children, h.sem, h.stats, h.p_s⟩

theorem same_handUp (off : Option ProcId) (v : Sched) (tOut : Int) (old : State) (p : ProcId)
    (old_state new_state : Addr) : Same off v (v.handUp tOut old p old_state new_state) :=
  have h : Same off v (v.updateLastStartTime tOut p) := (Same.refl off v).setContext p fun _ => rfl
  ⟨h.queue, h.free, h.parent, h.children, h.sem, h.stats, h.p_s⟩

theorem Same.killOne (h : Same off v u) (p : ProcId) : Same off (v.killOne p) (u.killOne p) := by
  refine ⟨?_, ?_, ?_, ?_, ?_, h.stats, fun a ha => ?_⟩
  · simp only [Sched.killOne, h.queue]
  · simp only [Sched.killOne, h.free]
  · simp only [Sched.killOne, h.parent]
  · simp only [Sched.killOne, h.children]
  · simp only [Sched.killOne, h.sem, h.queue]
  · by_cases hap : a = p
    · subst hap
      simpa [Sched.killOne] using h.p_s a ha
    · simpa [Sched.killOne, hap] using h.p_s a ha

theorem Same.killAll (h : Same off v u) (l : List ProcId) :
    Same off (v.killAll l) (u.killAll l) := by
  induction l generalizing v u with
  | nil => exact h
  | cons p l ih => exact ih (h.killOne p)

theorem Same.remains (h : Same off v u) (p : ProcId) : Same off (v.remains p) (u.remains p) := by
  have hunlink : (u.unlinkChild p).children = (v.unlinkChild p).children := by
    unfold unlinkChild
    rw [h.parent]
    split
    · exact h.children
    · rw [h.children]
  obtain ⟨cs, hv⟩ := v.unlinkChild_frame p
  obtain ⟨cs', hu⟩ := u.unlinkChild_frame p
  rw [hv, hu] at hunlink
  have hcs : cs' = cs := hunlink
  have hstart : Same off (v.unlinkChild p).removeReady (u.unlinkChild p).removeReady := by
    rw [hv, hu, hcs]
    refine ⟨?_, h.free, h.parent, rfl, h.sem, h.stats, h.p_s⟩
    simp only [removeReady, h.queue]
  rw [Sched.remains, Sched.remains, h.children]
  exact hstart.killAll _

theorem Same.block (h : Same off v u) (s : Addr) (p : ProcId) :
    Same off (v.block s p) (u.block s p) := by
  refine ⟨?_, h.free, h.parent, h.children, ?_, h.stats, h.p_s⟩
  · simp only [Sched.block, insertBlocked, removeReady, setSem, h.queue]
  · simp only [Sched.block, insertBlocked, removeReady, setSem, h.sem]

theorem queue_wake (hq : u.queue = v.queue) (s : Addr) : (u.wake s).queue = (v.wake s).queue := by
  have hrem : (u.removeBlocked s).queue = (v.removeBlocked s).queue := by
    simp only [removeBlocked, hq]
  unfold wake
  rw [procs, procs, hq, hrem]
  split
  · exact hq
  · next a _ =>
    by_cases hoff : occupied (v.removeBlocked s).queue a = ∅
    · rw [if_pos hoff, if_pos hoff]
      simp only [insertReady, hrem]
    · rw [if_neg hoff, if_neg hoff, hrem]

theorem Same.wake (h : Same off v u) (s : Addr) : Same off (v.wake s) (u.wake s) := by
  have hq := queue_wake h.queue s
  obtain ⟨q, hv⟩ := v.frame_wake s
  obtain ⟨q', hu⟩ := u.frame_wake s
  rw [hv, hu] at hq ⊢
  exact ⟨hq, h.free, h.parent, h.children, h.sem, h.stats, h.p_s⟩

theorem Same.setSem (h : Same off v u) (s : Addr) (n : Int) :
    Same off (v.setSem s n) (u.setSem s n) :=
  ⟨h.queue, h.free, h.parent, h.children, by simp only [Sched.setSem, h.sem], h.stats, h.p_s⟩

theorem Same.preempt (h : Same off v u) (tIn : Int) (old : State) :
    Same off (v.preempt tIn old) (u.preempt tIn old) := by
  unfold Sched.preempt
  rw [h.running]
  split
  · exact h
  · next p _ =>
    refine ⟨?_, h.free, h.parent, h.children, h.sem, h.stats, fun a ha => ?_⟩
    · simp only [insertReady, saveState, updateTotalTimeOnProcessor, Sched.setContext, removeReady,
        h.queue]
    · by_cases hap : a = p
      · subst hap
        simp [insertReady, saveState, updateTotalTimeOnProcessor, Sched.setContext]
      · simpa [insertReady, saveState, updateTotalTimeOnProcessor, Sched.setContext, removeReady, hap]
          using h.p_s a ha

theorem preempt_clock (v : Sched) (tIn : Int) (old : State) :
    (v.preempt tIn old).PSEUDO_CLOCK = v.PSEUDO_CLOCK := by
  unfold Sched.preempt
  split <;> rfl

theorem Same.tick (h : Same off v u) (hclock : u.PSEUDO_CLOCK = v.PSEUDO_CLOCK) :
    Same off (v.tick L) (u.tick L) := by
  unfold Sched.tick
  rw [hclock, congrFun h.queue (some L.PSEUDO_CLOCK_SEMAPHORE),
    congrFun h.sem L.PSEUDO_CLOCK_SEMAPHORE]
  split
  · split
    · exact ⟨h.queue, h.free, h.parent, h.children, h.sem, h.stats, h.p_s⟩
    · have hw := (h.setSem L.PSEUDO_CLOCK_SEMAPHORE (toLong (v.sem L.PSEUDO_CLOCK_SEMAPHORE + 1))).wake
        L.PSEUDO_CLOCK_SEMAPHORE
      exact ⟨hw.queue, hw.free, hw.parent, hw.children, hw.sem, hw.stats, hw.p_s⟩
  · exact h

end Same

-- What an entry can do to queues, semaphores, tree, completions and saved states.
inductive Effect (L : Layout) (e : Event) (v : Sched) : Sched → Prop
  | idle : Effect L e v v
  | create {p c : ProcId} {rest : List ProcId} (hr : v.running = some p) (hcall : e.call = some 1)
      (hfree : v.free = c :: rest) : Effect L e v (((v.enter e p).newborn p c rest).insertReady c)
  | kill {p : ProcId} (hr : v.running = some p) : Effect L e v (v.remains p)
  | vector {p : ProcId} (hr : v.running = some p) (hcall : e.call = some 3) :
      Effect L e v ((v.enter e p).vectored e.vector p)
  | wait {p : ProcId} {s : Addr} (hr : v.running = some p) (hs : Kernel.Waits L e s) (hz : v.sem s ≤ 0) :
      Effect L e v (v.block s p)
  | take {p : ProcId} {d : Device} (hr : v.running = some p) (hcall : e.call = some 8)
      (hd : deviceOf e.old.d4 = some d) (hpos : 0 < v.sem (L.device d)) :
      Effect L e v (v.setSem (L.device d) (v.sem (L.device d) - 1))
  | deliver {d : Device} {type : DeviceType} {reg : DevReg} {a : ProcId}
      (hkind : e.kind = .device type reg) (hd : e.device = some d)
      (hsem : v.sem (L.device d) = -1) (ha : (v.procs (some (L.device d))).head? = some a) :
      Effect L e v (((v.saveState a (((v.context a).p_s.setD2 reg.d_dadd).setD3 reg.d_stat)).setSem
        (L.device d) 0).wake (L.device d))
  | post {d : Device} {type : DeviceType} {reg : DevReg}
      (hkind : e.kind = .device type reg) (hd : e.device = some d)
      (hsem : v.sem (L.device d) ≠ -1) :
      Effect L e v ({ v with
        deviceCompletionStats :=
          Function.update v.deviceCompletionStats d ⟨reg.d_stat, reg.d_dadd⟩ }.setSem
        (L.device d) (toLong (v.sem (L.device d) + 1)))
  | clock (hkind : e.kind = .clock) :
      Effect L e v (({ v with PSEUDO_CLOCK := v.PSEUDO_CLOCK + QUANTUM }.preempt e.tIn e.old).tick L)

-- An effect of the entry, up to what is the same.
def Yields (L : Layout) (e : Event) (v v' : Sched) : Prop :=
  ∃ w, Effect L e v w ∧ Same v.running w v'

theorem Effect.yields (h : Effect L e v w) : Yields L e v w := ⟨w, h, Same.refl _ w⟩

theorem Yields.same (h : Yields L e v u) (hs : Same v.running u v') : Yields L e v v' :=
  h.imp fun _ hw => ⟨hw.1, hw.2.trans hs⟩

theorem yields_same (hs : Same v.running v v') : Yields L e v v' := ⟨v, .idle, hs⟩

section Yields

theorem yields_killproc (hr : v.running = some p) (hs : Same v.running v u) (currentTime : Int) :
    Yields L e v (u.killproc L currentTime p) :=
  ⟨_, .kill hr, (hs.remains p).trans (same_schedule ..)⟩

theorem yields_passUp (hr : v.running = some p) (hs : Same v.running v u) (T : TrapType)
    (old : State) (currentTime : Int) : Yields L e v (u.passUp L currentTime T old p) := by
  unfold Sched.passUp
  split
  · exact yields_same (hs.trans (u.same_handUp ..))
  · exact yields_killproc hr hs currentTime

theorem yields_createproc (hr : v.running = some p) (hcall : e.call = some 1) :
    Yields L e v ((v.enter e p).createproc p) := by
  by_cases hfree : v.free = []
  · rw [(v.enter e p).createproc_full hfree]
    have hs := v.same_enter v.running e p
    exact yields_same ⟨hs.queue, hs.free, hs.parent, hs.children, hs.sem, hs.stats, hs.p_s⟩
  · obtain ⟨c, rest, hfree⟩ := List.exists_cons_of_ne_nil hfree
    rw [(v.enter e p).createproc_cons hfree]
    exact (Effect.create hr hcall hfree).yields

theorem yields_semop (hr : v.running = some p) (hcall : e.call = some 3) :
    Yields L e v ((v.enter e p).semop L e.tOut e.vector p).kernel := by
  rw [semop_eq]
  split
  · exact (Effect.vector hr hcall).yields.same (same_schedule ..)
  · exact (Effect.vector hr hcall).yields

theorem yields_trapstate (hr : v.running = some p) (hs : Same v.running v u) (currentTime : Int) :
    Yields L e v (u.trapstate L currentTime p).kernel := by
  unfold Sched.trapstate
  split
  · exact yields_same hs
  · dsimp only
    split
    · exact yields_same (hs.setContext p fun _ => rfl)
    · exact yields_killproc hr hs currentTime

theorem yields_wait {s : Addr} (hr : v.running = some p) (hs : Same v.running v u)
    (hw : Kernel.Waits L e s) (hz : v.sem s ≤ 0) (currentTime : Int) :
    Yields L e v (u.wait L currentTime s p) :=
  ⟨_, .wait hr hw hz, (hs.block s p).trans (same_schedule ..)⟩

theorem yields_waitforio (hr : v.running = some p) (hcall : e.call = some 8) {d : Device}
    (hd : deviceOf e.old.d4 = some d) :
    Yields L e v ((v.enter e p).waitforio L e.tOut d p).kernel := by
  have henter := v.same_enter v.running e p
  unfold Sched.waitforio
  split
  · next hz =>
    have hsave : Same v.running v ((v.enter e p).saveState p e.old) :=
      henter.trans (hr ▸ same_saveState ..)
    exact yields_wait hr hsave (Or.inr ⟨hcall, d, hd, rfl⟩) hz e.tOut
  · next hz =>
    have hpos : 0 < v.sem (L.device d) := by
      change ¬ v.sem (L.device d) ≤ 0 at hz
      omega
    exact ⟨_, .take hr hcall hd hpos, henter.queue, henter.free, henter.parent, henter.children,
      rfl, rfl, henter.p_s⟩

theorem yields_call (hclock : v.level L.PSEUDO_CLOCK_SEMAPHORE = 0) (hr : v.running = some p)
    (hcall : e.call = some e.old.s_tmp.sys_no) :
    Yields L e v ((v.enter e p).call L e p).kernel := by
  have henter := v.same_enter v.running e p
  have hold : (v.enter e p).SYS_TRAP_OLD_STATE = e.old := rfl
  unfold Sched.call
  rw [hold]
  split
  · next hno => exact yields_createproc hr (hno ▸ hcall)
  · exact yields_killproc hr henter e.tOut
  · next hno => exact yields_semop hr (hno ▸ hcall)
  · exact yields_same ⟨rfl, rfl, rfl, rfl, rfl, rfl, henter.p_s⟩
  · exact yields_trapstate hr henter e.tOut
  · exact yields_same ⟨rfl, rfl, rfl, rfl, rfl, rfl, henter.p_s⟩
  · next hno =>
    have hz : v.sem L.PSEUDO_CLOCK_SEMAPHORE ≤ 0 := by
      rw [level] at hclock
      omega
    have hsave : Same v.running v ((v.enter e p).saveState p e.old) :=
      henter.trans (hr ▸ same_saveState ..)
    exact yields_wait hr hsave (Or.inl ⟨hno ▸ hcall, rfl⟩) hz e.tOut
  · next hno =>
    split
    · exact yields_same henter
    · next d hd => exact yields_waitforio hr (hno ▸ hcall) hd
  · exact yields_passUp hr henter .SYSTRAP e.old e.tOut

theorem yields_trapsyshandler (hclock : v.level L.PSEUDO_CLOCK_SEMAPHORE = 0)
    (hr : v.running = some p) (hkind : e.kind = .sys) :
    Yields L e v (v.trapsyshandler L e p) := by
  have henter := v.same_enter v.running e p
  unfold Sched.trapsyshandler
  split
  · refine yields_passUp hr (henter.trans ?_) .PROGTRAP _ e.tOut
    exact ⟨rfl, rfl, rfl, rfl, rfl, rfl, fun _ _ => rfl⟩
  · next hmode =>
    have hcall := yields_call hclock (e := e) hr (Event.call_eq hkind hmode)
    split
    · next v' heq =>
      rw [heq] at hcall
      exact hcall
    · next v' heq =>
      rw [heq] at hcall
      exact hcall.same (same_back ..)

theorem yields_inthandler {d : Device} {type : DeviceType} {reg : DevReg}
    (hkind : e.kind = .device type reg) (hd : e.device = some d) :
    Yields L e v (({ v with areas := e.areas } : Sched).inthandler L d reg) := by
  unfold Sched.inthandler
  split
  · next hsem =>
    split
    · exact yields_same ⟨rfl, rfl, rfl, rfl, rfl, rfl, fun _ _ => rfl⟩
    · next a ha =>
      refine ⟨_, .deliver hkind hd hsem ha, (Same.setSem ?_ _ _).wake _⟩
      exact ⟨rfl, rfl, rfl, rfl, rfl, rfl, fun _ _ => rfl⟩
  · next hsem =>
    exact ⟨_, .post hkind hd hsem, rfl, rfl, rfl, rfl, rfl, rfl, fun _ _ => rfl⟩

-- Every entry has one of the effects.
theorem step_yields (hclock : v.level L.PSEUDO_CLOCK_SEMAPHORE = 0) : Yields L e v (v.step L e) := by
  have hareas : Same v.running v { v with areas := e.areas } :=
    ⟨rfl, rfl, rfl, rfl, rfl, rfl, fun _ _ => rfl⟩
  unfold Sched.step
  split
  · next p hkind hr => exact yields_trapsyshandler hclock hr hkind
  · next p _ hr => exact yields_passUp hr hareas .MMTRAP e.old e.tOut
  · next p _ hr => exact yields_passUp hr hareas .PROGTRAP e.old e.tOut
  · next hkind =>
    refine ⟨_, .clock hkind, Same.trans ?_ (same_schedule ..)⟩
    refine Same.tick (Same.preempt ?_ e.tIn e.old) ?_
    · exact ⟨rfl, rfl, rfl, rfl, rfl, rfl, fun _ _ => rfl⟩
    · rw [preempt_clock, preempt_clock]
  · next d hkind hd =>
    have hint := yields_inthandler (L := L) (v := v) hkind hd
    unfold Sched.intdevicehandler
    dsimp only
    split
    · exact hint.same (same_schedule ..)
    · exact hint.same ⟨rfl, rfl, rfl, rfl, rfl, rfl, fun _ _ => rfl⟩
  · exact yields_same (Same.refl ..)

end Yields

end Sched

end Hoca
