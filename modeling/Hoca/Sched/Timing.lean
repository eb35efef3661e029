import Hoca.Sched.Context

namespace Hoca

-- The processor time of every process, added up from the intervals it was on the
-- processor, what of it ended in a program or memory management trap, and the
-- start of the interval that is not over yet.
structure Meter where
  spent : ProcId → Int
  lost : ProcId → Int
  since : Int

def Meter.counted (m : Meter) (p : ProcId) : Int := m.spent p - m.lost p

namespace Event

-- A new process has spent nothing yet.
def born (e : Event) (child : Option ProcId) (spent : ProcId → Int) : ProcId → Int :=
  match child with
  | some c => if e.call = some 1 then Function.update spent c 0 else spent
  | none => spent

-- The handlers of these two traps do not look at the clock when they are entered.
def unclocked (e : Event) : Bool :=
  match e.kind with
  | .mm => true
  | .prog => true
  | _ => false

-- Adds up the intervals. An interrupt of a device that finds a process running
-- is not the end of one.
def metered (e : Event) (running child : Option ProcId) (m : Meter) : Meter :=
  match e.kind, running with
  | .device _ _, some _ => m
  | _, none => { m with since := e.tOut }
  | _, some p =>
      { spent := e.born child (Function.update m.spent p (m.spent p + (e.tIn - m.since)))
        lost := e.born child (if e.unclocked then
          Function.update m.lost p (m.lost p + (e.tIn - m.since)) else m.lost)
        since := e.tOut }

theorem born_of_call {e : Event} (hcall : e.call ≠ some 1) (child : Option ProcId)
    (spent : ProcId → Int) : e.born child spent = spent := by
  unfold born
  split
  · exact if_neg hcall
  · rfl

theorem metered_device {e : Event} {type : DeviceType} {reg : DevReg}
    (hk : e.kind = .device type reg) (p : ProcId) (child : Option ProcId) (m : Meter) :
    e.metered (some p) child m = m := by
  simp only [metered, hk]

theorem metered_none (e : Event) (child : Option ProcId) (m : Meter) :
    e.metered none child m = { m with since := e.tOut } := by
  unfold metered
  split
  · next h => cases h
  · rfl
  · next h _ => cases h

theorem born_sub (e : Event) (child : Option ProcId) (f g : ProcId → Int) :
    (fun a => e.born child f a - e.born child g a) = e.born child fun a => f a - g a := by
  unfold born
  cases child with
  | none => rfl
  | some c =>
      by_cases hcall : e.call = some 1
      · funext a
        by_cases hac : a = c
        · simp [hcall, hac]
        · simp [hcall, hac]
      · simp [hcall]

theorem metered_some {e : Event} (hk : ∀ type reg, e.kind ≠ .device type reg) (p : ProcId)
    (child : Option ProcId) (m : Meter) : e.metered (some p) child m =
      { spent := e.born child (Function.update m.spent p (m.spent p + (e.tIn - m.since)))
        lost := e.born child (if e.unclocked then
          Function.update m.lost p (m.lost p + (e.tIn - m.since)) else m.lost)
        since := e.tOut } := by
  unfold metered
  split
  · next hd _ => exact absurd hd (hk _ _)
  · next h => cases h
  · next h _ =>
    cases h
    rfl

-- The kernel counts an interval when it looks at the clock at its end.
theorem counted_metered {e : Event} (hk : ∀ type reg, e.kind ≠ .device type reg) (p : ProcId)
    (child : Option ProcId) (m : Meter) : (e.metered (some p) child m).counted =
      e.born child (if e.unclocked then m.counted
        else Function.update m.counted p (m.counted p + (e.tIn - m.since))) := by
  rw [metered_some hk]
  refine (e.born_sub child _ _).trans (congrArg _ (funext fun a => ?_))
  by_cases hap : a = p
  · subst hap
    cases e.unclocked
    · simp [Meter.counted]
      omega
    · simp [Meter.counted]
  · cases e.unclocked <;> simp [Meter.counted, hap]

end Event

namespace Sched

variable {L : Layout} {v v' : Sched} {m : Meter} {counted : ProcId → Int} {p : ProcId} {e : Event}
  {s : State}

def totals (v : Sched) (p : ProcId) : Int := (v.context p).total_processor_time

-- The totals of the kernel are right, as far as a long holds them, and those of free
-- entries zero.
structure Totalled (counted : ProcId → Int) (v : Sched) : Prop where
  total : ∀ p ∉ v.free, v.totals p = toLong (counted p)
  spare : ∀ p ∈ v.free, v.totals p = 0

-- So is the start of the interval of the process on the processor.
structure Clocked (counted : ProcId → Int) (since : Int) (v : Sched) : Prop extends
    Totalled counted v where
  start : ∀ s p, v.cpu = .running s → v.running = some p →
    (v.context p).last_start_time = since

abbrev Metered (m : Meter) (v : Sched) : Prop := v.Clocked m.counted m.since

theorem Totalled.congr (h : v.Totalled counted) (hfree : v'.free = v.free)
    (htotals : v'.totals = v.totals) : v'.Totalled counted where
  total p hp := by
    rw [htotals]
    exact h.total p (hfree ▸ hp)
  spare p hp := by
    rw [htotals]
    exact h.spare p (hfree ▸ hp)

section Frame

theorem totals_setContext {c : Context}
    (hc : c.total_processor_time = (v.context p).total_processor_time) :
    (v.setContext p c).totals = v.totals := by
  funext a
  by_cases hap : a = p
  · subst hap
    simpa [totals, setContext] using hc
  · simp [totals, setContext, hap]

theorem totals_saveState (v : Sched) (p : ProcId) (s : State) :
    (v.saveState p s).totals = v.totals :=
  totals_setContext rfl

theorem totals_updateLastStartTime (v : Sched) (currentTime : Int) (p : ProcId) :
    (v.updateLastStartTime currentTime p).totals = v.totals :=
  totals_setContext rfl

theorem totals_updateTotalTimeOnProcessor (v : Sched) (currentTime : Int) (p : ProcId) :
    (v.updateTotalTimeOnProcessor currentTime p).totals = Function.update v.totals p
      (toLong (v.totals p + (currentTime - (v.context p).last_start_time))) := by
  funext a
  by_cases hap : a = p
  · subst hap
    simp [totals, updateTotalTimeOnProcessor, setContext]
  · simp [totals, updateTotalTimeOnProcessor, setContext, hap]

theorem totals_schedule (v : Sched) (currentTime : Int) :
    (v.schedule L currentTime).totals = v.totals := by
  unfold schedule
  split
  · next p _ => exact (v.totals_updateLastStartTime currentTime p)
  · obtain ⟨cpu, timer, hv⟩ := v.intdeadlock_frame L
    rw [hv]
    rfl

theorem totals_wake (v : Sched) (s : Addr) : (v.wake s).totals = v.totals := by
  funext p
  rw [totals, context_wake, totals]

theorem totals_semopStep (v : Sched) (o : Vpop) (b : Bool) :
    (v.semopStep o p b).1.totals = v.totals := by
  rcases v.semopStep_cases o p b with ⟨-, -, hv⟩ | ⟨-, -, hv⟩ | ⟨-, -, hv⟩
  · rw [hv]
    exact totals_saveState (v.setSem o.sem _) p _
  · rw [hv]
    exact totals_wake _ o.sem
  · rw [hv]
    rfl

theorem totals_semopLoop (v : Sched) (ops : List Vpop) (b : Bool) :
    (semopLoop ops p v b).1.totals = v.totals := by
  induction ops generalizing v b with
  | nil => rfl
  | cons o ops ih => exact (ih _ _).trans (v.totals_semopStep o b)

theorem totals_killAll (l : List ProcId) (v : Sched) (p : ProcId) :
    (v.killAll l).totals p = if p ∈ l then 0 else v.totals p := by
  induction l generalizing v with
  | nil => simp [killAll]
  | cons a l ih =>
      have hone : (v.killOne a).totals p = if p = a then 0 else v.totals p := by
        by_cases hap : p = a
        · subst hap
          simp [totals, killOne]
        · simp [totals, killOne, hap]
      rw [show v.killAll (a :: l) = (v.killOne a).killAll l from rfl, ih, hone]
      by_cases hl : p ∈ l
      · simp [hl]
      · simp [hl, List.mem_cons]

end Frame

section Exit

-- schedule starts the interval of the process it dispatches.
theorem Totalled.schedule (h : v.Totalled counted) (currentTime : Int) :
    (v.schedule L currentTime).Clocked counted currentTime where
  toTotalled := h.congr (schedule_free ..) (v.totals_schedule currentTime)
  start s p hs hr := by
    have hr' : v.running = some p := by
      rw [running, schedule_queue] at hr
      exact hr
    simp [Sched.schedule, hr', LDST, updateLastStartTime, setContext]

-- So does the way out of a system call.
theorem Totalled.resume (h : v.Totalled counted) (hr : v.running = some p) (currentTime : Int)
    (s : State) : ((v.updateLastStartTime currentTime p).LDST s).Clocked counted currentTime where
  toTotalled := h.congr rfl (v.totals_updateLastStartTime currentTime p)
  start t a _ ha := by
    rw [show ((v.updateLastStartTime currentTime p).LDST s).running = v.running from rfl, hr] at ha
    cases ha
    simp [LDST, updateLastStartTime, setContext]

theorem Totalled.remains (h : v.Totalled counted) (p : ProcId) :
    (v.remains p).Totalled counted := by
  obtain ⟨cs, hcs⟩ := v.unlinkChild_frame p
  have htotals : ∀ a, (v.remains p).totals a =
      if a ∈ Forest.progeny v.children MAXPROC p then 0 else v.totals a := by
    intro a
    rw [Sched.remains, totals_killAll, hcs]
    rfl
  refine ⟨fun a ha => ?_, fun a ha => ?_⟩
  · rw [free_remains, List.mem_append, not_or] at ha
    rw [htotals, if_neg ha.2]
    exact h.total a ha.1
  · rw [htotals]
    split
    · rfl
    · next hn =>
      rw [free_remains, List.mem_append] at ha
      exact h.spare a (ha.resolve_right hn)

theorem Totalled.killproc (h : v.Totalled counted) (p : ProcId) (currentTime : Int) :
    (v.killproc L currentTime p).Clocked counted currentTime :=
  (h.remains p).schedule currentTime

theorem Totalled.passUp (h : v.Totalled counted) (hr : v.running = some p) (T : TrapType)
    (old : State) (currentTime : Int) :
    (v.passUp L currentTime T old p).Clocked counted currentTime := by
  unfold Sched.passUp
  split
  · next old_state new_state _ _ =>
    have hareas : ({ v with areas := Function.update v.areas old_state old } : Sched).Totalled
        counted := h.congr rfl rfl
    exact hareas.resume hr currentTime _
  · exact h.killproc p currentTime

end Exit

section Call

-- A call comes back to its caller, or it ends with a dispatch.
abbrev Spends (counted : ProcId → Int) (p : ProcId) (currentTime : Int) (r : Ret Sched) : Prop :=
  r.Leaves (fun v => v.running = some p ∧ v.Totalled counted)
    fun v => v.Clocked counted currentTime

theorem totals_vectored (v : Sched) (ops : List Vpop) : (v.vectored ops p).totals = v.totals := by
  unfold vectored
  dsimp only
  split
  · exact v.totals_semopLoop ops false
  · exact v.totals_semopLoop ops false

theorem Totalled.semop (h : v.Totalled counted) (hr : v.running = some p) (ops : List Vpop)
    (currentTime : Int) : Spends counted p currentTime (v.semop L currentTime ops p) := by
  have hvec : (v.vectored ops p).Totalled counted := by
    obtain ⟨q, sem, context, hframe⟩ := v.frame_vectored p ops
    refine h.congr ?_ (v.totals_vectored ops)
    rw [hframe]
  rw [semop_eq]
  split
  · exact hvec.schedule currentTime
  · next hflag =>
    refine ⟨?_, hvec⟩
    unfold vectored
    rw [if_neg hflag]
    exact running_semopLoop hr ops false

-- The child starts with nothing spent.
theorem Totalled.createproc (h : v.Totalled counted) (hspare : v.free.Nodup)
    (hcall : e.call = some 1) (p : ProcId) :
    (v.createproc p).Totalled (e.born v.free.head? counted) := by
  by_cases hfree : v.free = []
  · have hnone : v.free.head? = none := by rw [hfree, List.head?_nil]
    rw [v.createproc_full hfree, hnone]
    exact h.congr rfl rfl
  · obtain ⟨c, rest, hfree⟩ := List.exists_cons_of_ne_nil hfree
    have htotals : ∀ a, ((v.newborn p c rest).insertReady c).totals a = v.totals a := by
      intro a
      by_cases hac : a = c
      · subst hac
        simp [totals, insertReady, newborn]
      · simp [totals, insertReady, newborn, hac]
    rw [hfree, List.nodup_cons] at hspare
    rw [v.createproc_cons hfree, hfree, List.head?_cons, Event.born, if_pos hcall]
    refine ⟨fun a ha => ?_, fun a ha => ?_⟩
    · rw [htotals]
      by_cases hac : a = c
      · subst hac
        rw [Function.update_self]
        exact h.spare a (hfree ▸ by simp)
      · have hlive : a ∉ v.free := by
          rw [hfree, List.mem_cons, not_or]
          exact ⟨hac, ha⟩
        simpa [hac] using h.total a hlive
    · rw [htotals]
      exact h.spare a (hfree ▸ List.mem_cons_of_mem c ha)

theorem Totalled.trapstate (h : v.Totalled counted) (hr : v.running = some p)
    (currentTime : Int) : Spends counted p currentTime (v.trapstate L currentTime p) := by
  unfold Sched.trapstate
  split
  · exact ⟨hr, h⟩
  · dsimp only
    split
    · exact ⟨hr, h.congr rfl (totals_setContext rfl)⟩
    · exact h.killproc p currentTime

theorem Totalled.wait (h : v.Totalled counted) (s : Addr) (currentTime : Int) :
    ((v.saveState p v.SYS_TRAP_OLD_STATE).wait L currentTime s p).Clocked
      counted currentTime := by
  have hblock : ((v.saveState p v.SYS_TRAP_OLD_STATE).block s p).Totalled counted :=
    h.congr rfl (v.totals_saveState p v.SYS_TRAP_OLD_STATE)
  exact hblock.schedule currentTime

theorem Totalled.waitforio (h : v.Totalled counted) (hr : v.running = some p) (d : Device)
    (currentTime : Int) : Spends counted p currentTime (v.waitforio L currentTime d p) := by
  unfold Sched.waitforio
  split
  · exact h.wait (L.device d) currentTime
  · exact ⟨hr, h.congr rfl rfl⟩

theorem Totalled.call (h : v.Totalled counted) (hspare : v.free.Nodup) (hr : v.running = some p)
    (hold : v.SYS_TRAP_OLD_STATE = e.old) (hcall : e.call = some e.old.s_tmp.sys_no)
    (hdev : e.call = some 8 → ∃ d, deviceOf e.old.d4 = some d) :
    Spends (e.born v.free.head? counted) p e.tOut (v.call L e p) := by
  have hborn : ∀ n, e.old.s_tmp.sys_no = n → n ≠ 1 → e.born v.free.head? counted = counted := by
    rintro n hn hne
    apply Event.born_of_call
    rw [hcall, hn]
    simpa using hne
  unfold Sched.call
  rw [hold]
  split
  · next hno => exact ⟨running_createproc hr, h.createproc hspare (hno ▸ hcall) p⟩
  · next hno =>
    rw [hborn 2 hno (by decide)]
    exact h.killproc p e.tOut
  · next hno =>
    rw [hborn 3 hno (by decide)]
    exact h.semop hr _ e.tOut
  · next hno =>
    rw [hborn 4 hno (by decide)]
    exact ⟨h.congr rfl rfl, fun s a hs => by cases hs⟩
  · next hno =>
    rw [hborn 5 hno (by decide)]
    exact h.trapstate hr e.tOut
  · next hno =>
    rw [hborn 6 hno (by decide)]
    exact ⟨hr, h.congr rfl rfl⟩
  · next hno =>
    rw [hborn 7 hno (by decide)]
    exact h.wait L.PSEUDO_CLOCK_SEMAPHORE e.tOut
  · next hno =>
    rw [hborn 8 hno (by decide)]
    obtain ⟨d, hd⟩ := hdev (hno ▸ hcall)
    rw [hd]
    exact h.waitforio hr d e.tOut
  · next hone _ _ _ _ _ _ _ =>
    rw [hborn _ rfl hone]
    exact h.passUp hr .SYSTRAP e.old e.tOut

theorem Spends.leave {r : Ret Sched} (h : Spends counted p e.tOut r) :
    (Sched.leave e p r).Clocked counted e.tOut := by
  cases r with
  | gone v => exact h
  | back v => exact h.2.resume h.1 e.tOut v.SYS_TRAP_OLD_STATE

-- The interval of the running process ends.
theorem Metered.charge (h : v.Metered m) (hr : v.running = some p) (hlive : p ∉ v.free)
    (hon : v.cpu = .running s) (tIn : Int) : (v.updateTotalTimeOnProcessor tIn p).Totalled
      (Function.update m.counted p (m.counted p + (tIn - m.since))) := by
  have htotals := v.totals_updateTotalTimeOnProcessor tIn p
  rw [h.start s p hon hr, h.total p hlive, toLong_add_toLong] at htotals
  refine ⟨fun a ha => ?_, fun a ha => ?_⟩
  · rw [htotals]
    by_cases hap : a = p
    · subst hap
      rw [Function.update_self, Function.update_self]
    · rw [Function.update_of_ne hap, Function.update_of_ne hap]
      exact h.total a ha
  · have hap : a ≠ p := by
      rintro rfl
      exact hlive ha
    rw [htotals, Function.update_of_ne hap]
    exact h.spare a ha

theorem Metered.trapsyshandler (h : v.Metered m) (hst : v.Stable L) (hr : v.running = some p)
    (hon : v.cpu = .running s) (hkind : e.kind = .sys)
    (hdev : e.call = some 8 → ∃ d, deviceOf e.old.d4 = some d) :
    (v.trapsyshandler L e p).Metered (e.metered (some p) v.free.head? m) := by
  have hdevice : ∀ type reg, e.kind ≠ .device type reg := by simp [hkind]
  have hclocked : e.unclocked = false := by simp only [Event.unclocked, hkind]
  have hcharge : (v.enter e p).Totalled
      (Function.update m.counted p (m.counted p + (e.tIn - m.since))) :=
    (h.charge hr (hst.live none p (running_mem hr)) hon e.tIn).congr rfl rfl
  rw [Metered, Event.counted_metered hdevice, Event.metered_some hdevice, hclocked,
    if_neg (by simp)]
  by_cases hmode : e.old.s_sr.ps_s = false ∧ e.old.s_tmp.sys_no < 9
  · have hcall : e.call = none := by simp only [Event.call, hkind, if_pos hmode]
    rw [Sched.trapsyshandler, if_pos hmode, Event.born_of_call (by simp [hcall])]
    exact Totalled.passUp (v := { v.enter e p with
      SYS_TRAP_OLD_STATE := { e.old with s_tmp := e.old.s_tmp.setPrTyp PRIVILEGE } })
      (hcharge.congr rfl rfl) hr .PROGTRAP _ e.tOut
  · rw [Sched.trapsyshandler, if_neg hmode]
    exact Spends.leave (hcharge.call (e := e) hst.spare hr rfl (Event.call_eq hkind hmode) hdev)

end Call

section Interrupt

theorem Totalled.tick (h : v.Totalled counted) : (v.tick L).Totalled counted := by
  unfold Sched.tick
  split
  · split
    · exact h.congr rfl rfl
    · exact h.congr (free_wake ..) (totals_wake ..)
  · exact h

theorem totals_inthandler (v : Sched) (d : Device) (reg : DevReg) :
    (v.inthandler L d reg).totals = v.totals := by
  unfold Sched.inthandler
  split
  · split
    · rfl
    · exact (totals_wake ..).trans (totals_saveState v _ _)
  · rfl

-- The start of an interval is not touched by a device.
theorem start_inthandler (v : Sched) (d : Device) (reg : DevReg) (p : ProcId) :
    ((v.inthandler L d reg).context p).last_start_time = (v.context p).last_start_time := by
  unfold Sched.inthandler
  split
  · split
    · rfl
    · next a _ =>
      rw [context_wake]
      by_cases hap : p = a
      · subst hap
        simp [setSem, saveState, setContext]
      · simp [setSem, saveState, setContext, hap]
  · rfl

theorem Metered.intdevicehandler (h : v.Metered m) (hon : v.queue none ≠ [] → ∃ s, v.cpu = .running s)
    {type : DeviceType} {reg : DevReg} (hk : e.kind = .device type reg) (d : Device) (old : State) :
    (v.intdevicehandler L e.tOut old d reg).Metered (e.metered v.running v.free.head? m) := by
  have hint : (v.inthandler L d reg).Totalled m.counted :=
    h.congr (v.free_inthandler d reg) (v.totals_inthandler d reg)
  unfold Sched.intdevicehandler
  dsimp only
  split
  · next hq =>
    have hr : v.running = none := by rw [running, hq]; rfl
    rw [hr, Event.metered_none]
    exact hint.schedule e.tOut
  · next hq =>
    obtain ⟨p, hr⟩ := running_of_ready hq
    obtain ⟨s, hs⟩ := hon hq
    rw [hr, Event.metered_device hk]
    refine ⟨hint.congr rfl rfl, fun _ a _ ha => ?_⟩
    rw [show ((v.inthandler L d reg).LDST old).running = (v.inthandler L d reg).running from rfl,
      running_inthandler hr d reg] at ha
    cases ha
    exact (v.start_inthandler d reg p).trans (h.start s p hs hr)

-- The clock ends the interval of the process it preempts.
theorem Metered.intclockhandler (h : v.Metered m) (hst : v.Stable L)
    (hon : v.queue none ≠ [] → ∃ s, v.cpu = .running s) (hk : e.kind = .clock) :
    (v.intclockhandler L e.tIn e.tOut e.old).Metered (e.metered v.running v.free.head? m) := by
  have hpreempt : ({ v with PSEUDO_CLOCK := v.PSEUDO_CLOCK + QUANTUM }.preempt e.tIn e.old).Totalled
      (e.metered v.running v.free.head? m).counted := by
    unfold Sched.preempt
    split
    · next hr =>
      rw [show v.running = none from hr, Event.metered_none]
      exact h.toTotalled.congr rfl rfl
    · next p hr =>
      have hr' : v.running = some p := hr
      obtain ⟨s, hs⟩ := hon (ready_of_running hr')
      have hcall : e.call ≠ some 1 := by simp [Event.call, hk]
      rw [hr', Event.counted_metered (by simp [hk]), Event.born_of_call hcall,
        if_neg (by simp [Event.unclocked, hk])]
      exact (h.charge hr' (hst.live none p (running_mem hr')) hs e.tIn).congr rfl
        (totals_saveState (v.updateTotalTimeOnProcessor e.tIn p) p e.old)
  have hsince : (e.metered v.running v.free.head? m).since = e.tOut := by
    cases v.running with
    | none => rw [Event.metered_none]
    | some p => rw [Event.metered_some (by simp [hk])]
  rw [Metered, hsince]
  exact hpreempt.tick.schedule e.tOut

end Interrupt

-- The interval that ends in such a trap is not counted.
theorem Metered.passUp (h : v.Metered m) (hr : v.running = some p)
    (hk : e.kind = .mm ∨ e.kind = .prog) (T : TrapType) :
    ({ v with areas := e.areas }.passUp L e.tOut T e.old p).Metered
      (e.metered (some p) v.free.head? m) := by
  have hdevice : ∀ type reg, e.kind ≠ .device type reg := by
    rcases hk with hk | hk <;> simp [hk]
  have hcall : e.call ≠ some 1 := by rcases hk with hk | hk <;> simp [Event.call, hk]
  have hunclocked : e.unclocked = true := by
    rcases hk with hk | hk <;> simp only [Event.unclocked, hk]
  rw [Metered, Event.counted_metered hdevice, Event.metered_some hdevice, hunclocked,
    if_pos rfl, Event.born_of_call hcall]
  exact Totalled.passUp (v := { v with areas := e.areas }) (h.toTotalled.congr rfl rfl) hr T e.old
    e.tOut

-- An entry keeps the account.
theorem Metered.step (h : v.Metered m) (hw : v.Wf L) (hexp : v.Expects e)
    (hon : v.queue none ≠ [] → ∃ s, v.cpu = .running s)
    (hdev : e.call = some 8 → ∃ d, deviceOf e.old.d4 = some d) :
    (v.step L e).Metered (e.metered v.running v.free.head? m) := by
  have hst := hw.toStable
  have hareas : ({ v with areas := e.areas } : Sched).Metered m :=
    ⟨h.toTotalled.congr rfl rfl, h.start⟩
  unfold Sched.step
  cases hk : e.kind with
  | sys =>
      obtain ⟨p, hr⟩ := hexp.running (Or.inl hk)
      obtain ⟨s, hs⟩ := hon (ready_of_running hr)
      simp only [hr]
      exact h.trapsyshandler hst hr hs hk hdev
  | mm =>
      obtain ⟨p, hr⟩ := hexp.running (Or.inr (Or.inl hk))
      simp only [hr]
      exact h.passUp hr (Or.inl hk) .MMTRAP
  | prog =>
      obtain ⟨p, hr⟩ := hexp.running (Or.inr (Or.inr hk))
      simp only [hr]
      exact h.passUp hr (Or.inr hk) .PROGTRAP
  | clock =>
      have hclock : ({ v with areas := e.areas, intervalTimer := none } : Sched).Metered m :=
        ⟨h.toTotalled.congr rfl rfl, h.start⟩
      exact hclock.intclockhandler (hst.congr rfl rfl rfl rfl rfl) hon hk
  | device type reg =>
      obtain ⟨d, hd⟩ := hexp.device type reg hk
      simp only [hd]
      exact hareas.intdevicehandler hon hk d e.old

-- SYS6 comes back with what its caller has spent, as far as a long holds it.
theorem step_getcputime (h : v.Metered m) (hlive : ∀ p ∈ v.procs none, p ∉ v.free)
    (hr : v.running = some p) (hon : v.cpu = .running s) (hcall : e.call = some 6) :
    ∃ t, (v.step L e).cpu = .running t ∧ t.d2 = toLong (m.counted p + (e.tIn - m.since)) := by
  have hcharge := (h.charge hr (hlive p (running_mem hr)) hon e.tIn).total p
    (hlive p (running_mem hr))
  rw [Function.update_self] at hcharge
  have hcallee : (v.enter e p).call L e p = .back { v.enter e p with
      SYS_TRAP_OLD_STATE := e.old.setD2 ((v.enter e p).totals p) } := by
    unfold Sched.call
    rw [(call_some hcall).2.2]
    rfl
  rw [step_call hr hcall, hcallee]
  refine ⟨e.old.setD2 ((v.enter e p).totals p), rfl, ?_⟩
  rw [← hcharge]
  simp [State.d2, State.setD2]
  rfl

end Sched

end Hoca
