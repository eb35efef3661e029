import Hoca.Sched.Ledger

namespace Hoca

open Forest Fifo

def Event.isClock (e : Event) : Bool :=
  match e.kind with
  | .clock => true
  | _ => false

theorem Event.isClock_iff {e : Event} : e.isClock = true ↔ e.kind = .clock := by
  unfold Event.isClock
  split
  · next hk => exact iff_of_true rfl hk
  · next hk => exact iff_of_false (by simp) hk

-- What intclockhandler makes of the pseudo clock.
def nextPseudoClock (n : Int) : Int := if n + QUANTUM ≥ 100000 then 0 else n + QUANTUM

namespace Sched

variable {L : Layout} {v u w : Sched} {p : ProcId} {e : Event} {currentTime : Int}

-- The pseudo clock and the interval timer are as they were.
structure Still (v w : Sched) : Prop where
  pseudo : w.PSEUDO_CLOCK = v.PSEUDO_CLOCK
  timer : w.intervalTimer = v.intervalTimer

-- How the kernel lets go of the processor: it schedules, it goes on with a state
-- when somebody was ready, or it halts.
inductive Departs (L : Layout) (currentTime : Int) (v : Sched) : Sched → Prop
  | scheduled {u : Sched} (h : Still v u) : Departs L currentTime v (u.schedule L currentTime)
  | loaded {u : Sched} (h : Still v u) (hq : v.queue none ≠ []) (s : State) :
      Departs L currentTime v (u.LDST s)
  | halted {u : Sched} (h : Still v u) : Departs L currentTime v { u with cpu := .halted "" }

-- A call returns or lets go of the processor.
abbrev Replies (L : Layout) (currentTime : Int) (v : Sched) (r : Ret Sched) : Prop :=
  r.Leaves (Still v) (Departs L currentTime v)

section Still

theorem Still.refl (v : Sched) : Still v v := ⟨rfl, rfl⟩

theorem Still.trans (h : Still v u) (h' : Still u w) : Still v w :=
  ⟨h'.pseudo.trans h.pseudo, h'.timer.trans h.timer⟩

theorem Departs.still (h : Departs L currentTime u w) (hs : Still v u)
    (hq : u.queue none = v.queue none) : Departs L currentTime v w := by
  cases h with
  | scheduled h => exact .scheduled (hs.trans h)
  | loaded h hu s => exact .loaded (hs.trans h) (hq ▸ hu) s
  | halted h => exact .halted (hs.trans h)

theorem still_wake (v : Sched) (s : Addr) : Still v (v.wake s) := by
  obtain ⟨q, hq⟩ := v.frame_wake s
  rw [hq]
  exact ⟨rfl, rfl⟩

theorem still_vectored (v : Sched) (p : ProcId) (ops : List Vpop) : Still v (v.vectored ops p) := by
  obtain ⟨q, sem, context, hv⟩ := v.frame_vectored p ops
  rw [hv]
  exact ⟨rfl, rfl⟩

theorem still_killAll (v : Sched) (l : List ProcId) : Still v (v.killAll l) := by
  induction l generalizing v with
  | nil => exact Still.refl v
  | cons p l ih =>
      have hone : Still v (v.killOne p) := ⟨rfl, rfl⟩
      exact hone.trans (ih _)

theorem still_remains (v : Sched) (p : ProcId) : Still v (v.remains p) := by
  obtain ⟨cs, hcs⟩ := v.unlinkChild_frame p
  have hunlink : Still v (v.unlinkChild p).removeReady := by
    rw [hcs]
    exact ⟨rfl, rfl⟩
  exact hunlink.trans (still_killAll _ _)

theorem still_createproc (v : Sched) (p : ProcId) : Still v (v.createproc p) := by
  by_cases hfree : v.free = []
  · rw [v.createproc_full hfree]
    exact ⟨rfl, rfl⟩
  · obtain ⟨c, rest, hfree⟩ := List.exists_cons_of_ne_nil hfree
    rw [v.createproc_cons hfree]
    exact ⟨rfl, rfl⟩

theorem still_inthandler (v : Sched) (d : Device) (reg : DevReg) :
    Still v (v.inthandler L d reg) := by
  unfold Sched.inthandler
  split
  · split
    · exact Still.refl v
    · next a _ =>
      have hset : Still v ((v.saveState a (((v.context a).p_s.setD2 reg.d_dadd).setD3
        reg.d_stat)).setSem (L.device d) 0) := ⟨rfl, rfl⟩
      exact hset.trans (still_wake _ _)
  · exact ⟨rfl, rfl⟩

theorem schedule_PSEUDO_CLOCK (v : Sched) :
    (v.schedule L currentTime).PSEUDO_CLOCK = v.PSEUDO_CLOCK := by
  obtain ⟨_, _, _, h⟩ := v.schedule_frame L currentTime
  rw [h]

theorem schedule_procs (v : Sched) (x : QueueId) :
    (v.schedule L currentTime).procs x = v.procs x := by
  rw [Sched.procs, schedule_queue, Sched.procs]

theorem tick_PSEUDO_CLOCK (v : Sched) : (v.tick L).PSEUDO_CLOCK =
    if v.PSEUDO_CLOCK ≥ 100000 then 0 else v.PSEUDO_CLOCK := by
  unfold Sched.tick
  split
  · split <;> rfl
  · rfl

end Still

section Departs

theorem departs_killproc (v : Sched) (p : ProcId) :
    Departs L currentTime v (v.killproc L currentTime p) :=
  .scheduled (v.still_remains p)

theorem departs_passUp (hr : v.running = some p) (T : TrapType) (old : State) :
    Departs L currentTime v (v.passUp L currentTime T old p) := by
  unfold Sched.passUp
  split
  · next old_state new_state _ _ =>
    let u : Sched := { v.updateLastStartTime currentTime p with
      areas := Function.update v.areas old_state old }
    have hu : Still v u := ⟨rfl, rfl⟩
    exact .loaded hu (ready_of_running hr) _
  · exact v.departs_killproc p

theorem serves_trapstate (v : Sched) (p : ProcId) :
    Replies L currentTime v (v.trapstate L currentTime p) := by
  unfold Sched.trapstate
  split
  · exact Still.refl v
  · dsimp only
    split
    · exact ⟨rfl, rfl⟩
    · exact v.departs_killproc p

theorem serves_semop (v : Sched) (ops : List Vpop) (p : ProcId) :
    Replies L currentTime v (v.semop L currentTime ops p) := by
  rw [semop_eq]
  split
  · exact .scheduled (v.still_vectored p ops)
  · exact v.still_vectored p ops

theorem departs_wait (v : Sched) (s : Addr) (p : ProcId) :
    Departs L currentTime v (v.wait L currentTime s p) := by
  have hblock : Still v (v.block s p) := ⟨rfl, rfl⟩
  exact .scheduled hblock

theorem serves_waitforio (v : Sched) (d : Device) (p : ProcId) :
    Replies L currentTime v (v.waitforio L currentTime d p) := by
  unfold Sched.waitforio
  split
  · have hsave : Still v (v.saveState p v.SYS_TRAP_OLD_STATE) := ⟨rfl, rfl⟩
    exact (departs_wait _ (L.device d) p).still hsave rfl
  · exact ⟨rfl, rfl⟩

theorem serves_call (hr : v.running = some p) (hold : v.SYS_TRAP_OLD_STATE = e.old)
    (hdev : e.old.s_tmp.sys_no = 8 → ∃ d, deviceOf e.old.d4 = some d) :
    Replies L e.tOut v (v.call L e p) := by
  unfold Sched.call
  split
  · exact v.still_createproc p
  · exact v.departs_killproc p
  · exact v.serves_semop _ p
  · exact .halted (Still.refl v)
  · exact v.serves_trapstate p
  · exact ⟨rfl, rfl⟩
  · have hsave : Still v (v.saveState p v.SYS_TRAP_OLD_STATE) := ⟨rfl, rfl⟩
    exact (departs_wait _ L.PSEUDO_CLOCK_SEMAPHORE p).still hsave rfl
  · next hno =>
    obtain ⟨d, hd⟩ := hdev hno
    rw [hold, hd]
    exact v.serves_waitforio d p
  · exact departs_passUp hr .SYSTRAP _

theorem departs_trapsyshandler (hr : v.running = some p) (hkind : e.kind = .sys)
    (hdev : e.call = some 8 → ∃ d, deviceOf e.old.d4 = some d) :
    Departs L e.tOut v (v.trapsyshandler L e p) := by
  have henter : Still v (v.enter e p) := ⟨rfl, rfl⟩
  unfold Sched.trapsyshandler
  split
  · let u : Sched := { v.enter e p with
      SYS_TRAP_OLD_STATE := { e.old with s_tmp := e.old.s_tmp.setPrTyp PRIVILEGE } }
    have hu : Still v u := ⟨rfl, rfl⟩
    exact (departs_passUp (v := u) hr .PROGTRAP _).still hu rfl
  · next hmode =>
    have hreplies : Replies L e.tOut (v.enter e p) ((v.enter e p).call L e p) :=
      serves_call hr rfl fun hno => hdev (hno ▸ Event.call_eq hkind hmode)
    split
    · next u heq =>
      rw [heq] at hreplies
      exact Departs.still hreplies henter rfl
    · next u heq =>
      rw [heq] at hreplies
      have htime : Still u (u.updateLastStartTime e.tOut p) := ⟨rfl, rfl⟩
      exact .loaded (henter.trans (Still.trans hreplies htime)) (ready_of_running hr) _

-- How an entry ends that is not the clock's.
theorem departs_step (hexp : v.Expects e) (hk : e.kind ≠ .clock)
    (hdev : e.call = some 8 → ∃ d, deviceOf e.old.d4 = some d) :
    Departs L e.tOut v (v.step L e) := by
  have hareas : Still v { v with areas := e.areas } := ⟨rfl, rfl⟩
  unfold Sched.step
  cases hkind : e.kind with
  | sys =>
      obtain ⟨p, hr⟩ := hexp.running (Or.inl hkind)
      rw [hr]
      exact departs_trapsyshandler hr hkind hdev
  | mm =>
      obtain ⟨p, hr⟩ := hexp.running (Or.inr (Or.inl hkind))
      rw [hr]
      exact (departs_passUp (v := { v with areas := e.areas }) hr .MMTRAP e.old).still hareas rfl
  | prog =>
      obtain ⟨p, hr⟩ := hexp.running (Or.inr (Or.inr hkind))
      rw [hr]
      exact (departs_passUp (v := { v with areas := e.areas }) hr .PROGTRAP e.old).still hareas rfl
  | clock => exact absurd hkind hk
  | device type reg =>
      obtain ⟨d, hd⟩ := hexp.device type reg hkind
      rw [hd]
      have hint := hareas.trans (still_inthandler (L := L) { v with areas := e.areas } d reg)
      dsimp only
      unfold Sched.intdevicehandler
      dsimp only
      split
      · exact .scheduled hint
      · next hq => exact .loaded hint hq _

-- The kernel that intclockhandler starts from.
def ticking (v : Sched) (e : Event) : Sched := { v with
  areas := e.areas
  intervalTimer := none
  PSEUDO_CLOCK := v.PSEUDO_CLOCK + QUANTUM }

theorem step_ticking (v : Sched) (hk : e.kind = .clock) :
    v.step L e = (((v.ticking e).preempt e.tIn e.old).tick L).schedule L e.tOut := by
  unfold Sched.step
  rw [hk]
  rfl

theorem Departs.pseudo (h : Departs L currentTime v w) : w.PSEUDO_CLOCK = v.PSEUDO_CLOCK := by
  cases h with
  | scheduled h => rw [schedule_PSEUDO_CLOCK, h.pseudo]
  | loaded h _ _ => exact h.pseudo
  | halted h => exact h.pseudo

theorem step_PSEUDO_CLOCK (hexp : v.Expects e)
    (hdev : e.call = some 8 → ∃ d, deviceOf e.old.d4 = some d) : (v.step L e).PSEUDO_CLOCK =
      if e.isClock then nextPseudoClock v.PSEUDO_CLOCK else v.PSEUDO_CLOCK := by
  by_cases hk : e.kind = .clock
  · rw [if_pos (Event.isClock_iff.mpr hk), step_ticking v hk, schedule_PSEUDO_CLOCK,
      tick_PSEUDO_CLOCK, preempt_clock]
    rfl
  · rw [if_neg (fun hc => hk (Event.isClock_iff.mp hc))]
    exact (departs_step hexp hk hdev).pseudo

end Departs

section Attended

-- While anybody is ready a process has the processor and the interval timer runs,
-- unless SYS4 has halted the machine.
def Attended (v : Sched) : Prop :=
  v.queue none ≠ [] →
    (∃ s, v.cpu = .running s ∧ v.intervalTimer = some QUANTUM) ∨ v.cpu = .halted ""

theorem attended_schedule (v : Sched) : (v.schedule L currentTime).Attended := by
  intro hq
  rw [schedule_queue] at hq
  obtain ⟨p, hr⟩ := running_of_ready hq
  unfold Sched.schedule
  rw [hr]
  exact Or.inl ⟨_, rfl, rfl⟩

theorem Departs.attended (h : Departs L currentTime v w) (hv : v.Attended)
    (hon : v.cpu ≠ .halted "") : w.Attended := by
  cases h with
  | scheduled h => exact attended_schedule _
  | @loaded u h hq s =>
      obtain ⟨_, -, htimer⟩ := (hv hq).resolve_right hon
      exact fun _ => Or.inl ⟨s, rfl, h.timer.trans htimer⟩
  | halted h => exact fun _ => Or.inr rfl

theorem Attended.step (h : v.Attended) (hexp : v.Expects e) (hon : v.cpu ≠ .halted "")
    (hdev : e.call = some 8 → ∃ d, deviceOf e.old.d4 = some d) : (v.step L e).Attended := by
  by_cases hk : e.kind = .clock
  · rw [step_ticking v hk]
    exact attended_schedule _
  · exact (departs_step hexp hk hdev).attended h hon

end Attended

section PseudoClock

theorem procs_ticking (v : Sched) (e : Event) (x : QueueId) :
    ((v.ticking e).preempt e.tIn e.old).procs x =
      if x = none then (v.procs none).rotate 1 else v.procs x :=
  procs_preempt (v.ticking e) e.tIn e.old x

theorem procs_ticking_some (v : Sched) (e : Event) (s : Addr) :
    ((v.ticking e).preempt e.tIn e.old).procs (some s) = v.procs (some s) := by
  rw [procs_ticking, if_neg (by simp)]

-- The waiters for the pseudo clock after an entry of the clock.
theorem procs_step_clock (v : Sched) (hk : e.kind = .clock) :
    (v.step L e).procs (some L.PSEUDO_CLOCK_SEMAPHORE) =
      if v.PSEUDO_CLOCK + QUANTUM ≥ 100000 then (v.procs (some L.PSEUDO_CLOCK_SEMAPHORE)).tail
      else v.procs (some L.PSEUDO_CLOCK_SEMAPHORE) := by
  rw [step_ticking v hk, schedule_procs]
  refine (procs_tick _ L.PSEUDO_CLOCK_SEMAPHORE).trans ?_
  rw [procs_ticking_some, preempt_clock]
  simp only [true_and]
  rfl

-- The first of them is ready when the pseudo clock starts again.
theorem released_step_clock (h : v.Wf L) (hk : e.kind = .clock)
    (hfull : v.PSEUDO_CLOCK + QUANTUM ≥ 100000)
    (hp : (v.procs (some L.PSEUDO_CLOCK_SEMAPHORE)).head? = some p) :
    p ∈ (v.step L e).procs none := by
  let u := (v.ticking e).preempt e.tIn e.old
  have hprocs : ∀ x, u.procs x = if x = none then (v.procs none).rotate 1 else v.procs x :=
    v.procs_ticking e
  have hpclock : u.procs (some L.PSEUDO_CLOCK_SEMAPHORE) =
      v.procs (some L.PSEUDO_CLOCK_SEMAPHORE) := v.procs_ticking_some e _
  obtain ⟨rest, hwait⟩ := List.head?_eq_some_iff.mp hp
  have hmem : p ∈ v.procs (some L.PSEUDO_CLOCK_SEMAPHORE) := by
    rw [hwait]
    exact List.mem_cons_self
  have htick : (u.tick L).procs none = ((u.setSem L.PSEUDO_CLOCK_SEMAPHORE
      (toLong (u.sem L.PSEUDO_CLOCK_SEMAPHORE + 1))).wake L.PSEUDO_CLOCK_SEMAPHORE).procs none := by
    have hclock : u.PSEUDO_CLOCK ≥ 100000 := (preempt_clock ..).symm ▸ hfull
    have hq : u.queue (some L.PSEUDO_CLOCK_SEMAPHORE) ≠ [] := by
      intro hq
      rw [Sched.procs, hq] at hpclock
      rw [← hpclock] at hmem
      cases hmem
    unfold Sched.tick
    rw [if_pos hclock, if_neg hq]
    rfl
  rw [step_ticking v hk, schedule_procs]
  change p ∈ (u.tick L).procs none
  rw [htick]
  have hset : ∀ x, (u.setSem L.PSEUDO_CLOCK_SEMAPHORE
      (toLong (u.sem L.PSEUDO_CLOCK_SEMAPHORE + 1))).procs x = u.procs x := fun _ => rfl
  rcases wake_cases (u.setSem L.PSEUDO_CLOCK_SEMAPHORE (toLong (u.sem L.PSEUDO_CLOCK_SEMAPHORE + 1)))
    L.PSEUDO_CLOCK_SEMAPHORE with ⟨hnil, -⟩ | ⟨a, as, hq, ⟨y, hy⟩, -⟩ | ⟨a, as, hq, -, hw⟩
  · rw [hset, hpclock, hwait] at hnil
    cases hnil
  · rw [hset, hpclock, hwait] at hq
    obtain ⟨rfl, rfl⟩ := List.cons.inj hq
    rw [procs_removeBlocked, hset, hset, hpclock, hwait, hprocs] at hy
    have hnodup := h.distinct (some L.PSEUDO_CLOCK_SEMAPHORE)
    rw [hwait] at hnodup
    split at hy
    · exact absurd hy (List.nodup_cons.mp hnodup).1
    · next hne =>
      have honly := h.only L.PSEUDO_CLOCK_SEMAPHORE (Or.inl rfl) p hmem y hne
      split at hy
      · next hnone =>
        rw [List.mem_rotate] at hy
        exact absurd (hnone ▸ hy) honly
      · exact absurd hy honly
  · rw [hset, hpclock, hwait] at hq
    obtain ⟨rfl, rfl⟩ := List.cons.inj hq
    rw [hw, procs_insertReady, if_pos rfl]
    exact List.mem_append_right _ (List.mem_singleton.mpr rfl)

-- A SYS7 puts its caller behind them.
theorem procs_step_wait (hr : v.running = some p) (hcall : e.call = some 7) :
    (v.step L e).procs (some L.PSEUDO_CLOCK_SEMAPHORE) =
      v.procs (some L.PSEUDO_CLOCK_SEMAPHORE) ++ [p] := by
  have hcallee : (v.enter e p).call L e p = .gone ((v.enter e p).waitforpclock L e.tOut p) := by
    unfold Sched.call
    rw [(call_some hcall).2.2]
    rfl
  rw [step_call hr hcall, hcallee, leave, waitforpclock, wait, schedule_procs]
  refine (procs_block _ L.PSEUDO_CLOCK_SEMAPHORE p _).trans ?_
  rw [if_pos rfl]
  rfl

-- Nobody else comes to the pseudo clock, and nobody else leaves it alive.
theorem avoids_pclock (hap : Apart L e) (hk : e.kind ≠ .clock) (hcall : e.call ≠ some 7) :
    e.Avoids L L.PSEUDO_CLOCK_SEMAPHORE where
  vector hc o ho heq := hap.reserved hc o ho (Or.inl heq)
  waits hw := by
    rcases hw with ⟨hc, -⟩ | ⟨-, d, -, heq⟩
    · exact hcall hc
    · exact L.device_ne_pseudoClock d heq.symm
  device d _ heq := L.device_ne_pseudoClock d heq.symm
  clock hc := absurd hc hk

end PseudoClock

section Turn

theorem advances_tick (v : Sched) : Advances (v.procs none) ((v.tick L).procs none) := by
  unfold Sched.tick
  split
  · split
    · exact Advances.refl _
    · exact advances_wake (v.setSem L.PSEUDO_CLOCK_SEMAPHORE (toLong (v.sem L.PSEUDO_CLOCK_SEMAPHORE + 1)))
        L.PSEUDO_CLOCK_SEMAPHORE
  · exact Advances.refl _

-- The clock ends the turn of the running process.
theorem advances_clock (v : Sched) (hk : e.kind = .clock) :
    Advances ((v.procs none).rotate 1) ((v.step L e).procs none) := by
  have hturn := v.procs_ticking e none
  rw [if_pos rfl] at hturn
  have hadv := advances_tick (L := L) ((v.ticking e).preempt e.tIn e.old)
  rw [hturn] at hadv
  rw [step_ticking v hk, schedule_procs]
  exact hadv

end Turn

end Sched

end Hoca
