import Hoca.Sched.Vector

namespace Hoca

-- The same processor state but for some registers.
structure State.Agrees (results : List (Fin 17)) (s t : State) : Prop where
  s_r : ∀ r, r ∉ results → t.s_r r = s.s_r r
  s_sr : t.s_sr = s.s_sr
  s_tmp : t.s_tmp = s.s_tmp
  s_crp : t.s_crp = s.s_crp

-- How a process left the processor: with a state in which the kernel may still
-- write the results of a call, or for its own trap handler.
inductive Left where
  | trapped (s : State) (results : List (Fin 17))
  | handed (old_state new_state : Addr) (s : State)

namespace Left

-- The state that a process goes on with.
def Resumes (areas : Addr → State) : Left → State → Prop
  | trapped s results, t => s.Agrees results t
  | handed old_state new_state s, t => areas old_state = s ∧ t = areas new_state

-- What the kernel keeps for a process that is not on the processor.
def Saved : Left → State → Prop
  | trapped s results, t => s.Agrees results t
  | handed _ _ _, _ => False

-- The process may find the results of SYS8.
def AwaitsIo : Left → Prop
  | trapped _ results => 2 ∈ results ∧ 3 ∈ results
  | handed _ _ _ => False

theorem Saved.resumes {l : Left} {t : State} (h : l.Saved t) (areas : Addr → State) :
    l.Resumes areas t := by
  cases l with
  | trapped s results => exact h
  | handed _ _ _ => exact h.elim

end Left

namespace State

theorem Agrees.refl (results : List (Fin 17)) (s : State) : s.Agrees results s :=
  ⟨fun _ _ => rfl, rfl, rfl, rfl⟩

theorem Agrees.setD2 {results : List (Fin 17)} {s t : State} (h : s.Agrees results t)
    (hr : 2 ∈ results) (n : Int) : s.Agrees results (t.setD2 n) := by
  refine ⟨fun r hm => ?_, h.s_sr, h.s_tmp, h.s_crp⟩
  have hne : r ≠ 2 := fun heq => hm (heq ▸ hr)
  simpa [State.setD2, hne] using h.s_r r hm

theorem Agrees.setD3 {results : List (Fin 17)} {s t : State} (h : s.Agrees results t)
    (hr : 3 ∈ results) (n : Int) : s.Agrees results (t.setD3 n) := by
  refine ⟨fun r hm => ?_, h.s_sr, h.s_tmp, h.s_crp⟩
  have hne : r ≠ 3 := fun heq => hm (heq ▸ hr)
  simpa [State.setD3, hne] using h.s_r r hm

end State

theorem Left.Saved.results {l : Left} {s : State} (h : l.Saved s) (hl : l.AwaitsIo) (m n : Int) :
    l.Saved ((s.setD2 m).setD3 n) := by
  cases l with
  | trapped s' results => exact (State.Agrees.setD2 h hl.1 m).setD3 hl.2 n
  | handed _ _ _ => exact h.elim

namespace Event

-- The registers in which a system call documents its results.
def results (e : Event) : List (Fin 17) :=
  match e.call with
  | some 1 => [2]
  | some 6 => [2]
  | some 8 => [2, 3]
  | _ => []

-- The state that the kernel hands up: a system call in user mode is a privileged
-- instruction.
def stored (e : Event) : State :=
  match e.kind with
  | .sys =>
      if e.old.s_sr.ps_s = false ∧ e.old.s_tmp.sys_no < 9 then
        { e.old with s_tmp := e.old.s_tmp.setPrTyp PRIVILEGE }
      else e.old
  | _ => e.old

-- How the running process leaves the processor at a kernel entry.
def leaves (e : Event) (c : Context) : Left :=
  match e.trap with
  | none => .trapped e.old e.results
  | some T =>
      match c.trap_old_state T, c.trap_new_state T with
      | some old_state, some new_state => .handed old_state new_state e.stored
      | _, _ => .trapped e.old []

-- The note of who left the processor how, after an entry. A new process starts
-- from the area its parent gave.
def noted (e : Event) (running child : Option ProcId) (context : ProcId → Context)
    (g : ProcId → Left) : ProcId → Left :=
  let g := match running with
    | some p => Function.update g p (e.leaves (context p))
    | none => g
  match child with
  | some c => if e.call = some 1 then Function.update g c (.trapped (e.areas e.old.d4) []) else g
  | none => g

theorem leaves_of_trap {e : Event} (htrap : e.trap = none) (c : Context) :
    e.leaves c = .trapped e.old e.results := by
  simp only [leaves, htrap]

-- A system call that the kernel serves is not passed up.
theorem trap_of_call {e : Event} {n : ℕ} (hcall : e.call = some n) (hpos : 0 < n) (hn : n < 9) :
    e.trap = none := by
  unfold Event.call at hcall
  split at hcall
  · next hk =>
    split at hcall
    · cases hcall
    · next hm =>
      cases hcall
      simp only [Event.trap, hk, if_neg hm]
      rw [if_neg (by omega)]
  · cases hcall

theorem call_none {e : Event} (hk : e.kind ≠ .sys) : e.call = none := by
  unfold Event.call
  split
  · next h => exact absurd h hk
  · rfl

theorem stored_eq {e : Event} (hk : e.kind ≠ .sys) : e.stored = e.old := by
  unfold stored
  split
  · next h => exact absurd h hk
  · rfl

theorem noted_of_call {e : Event} {child : Option ProcId} {context : ProcId → Context}
    {g : ProcId → Left} (hcall : e.call ≠ some 1) (p : ProcId) :
    e.noted (some p) child context g = Function.update g p (e.leaves (context p)) := by
  unfold noted
  cases child with
  | none => rfl
  | some c => exact if_neg hcall

theorem noted_congr {e : Event} {child : Option ProcId} {context context' : ProcId → Context}
    {g : ProcId → Left} {p : ProcId} (hold : (context p).trap_old_state = (context' p).trap_old_state)
    (hnew : (context p).trap_new_state = (context' p).trap_new_state) :
    e.noted (some p) child context g = e.noted (some p) child context' g := by
  have hleaves : e.leaves (context p) = e.leaves (context' p) := by
    unfold leaves
    rw [hold, hnew]
  simp only [noted, hleaves]

theorem noted_self {e : Event} {child : Option ProcId} {context : ProcId → Context}
    {g : ProcId → Left} {p : ProcId} (hp : ∀ c, child = some c → p ≠ c) :
    e.noted (some p) child context g p = e.leaves (context p) := by
  unfold noted
  cases child with
  | none => exact Function.update_self ..
  | some c =>
      dsimp only
      split
      · rw [Function.update_of_ne (hp c rfl), Function.update_self]
      · exact Function.update_self ..

theorem leaves_handed {e : Event} {T : TrapType} {c : Context} {old_state new_state : Addr}
    (htrap : e.trap = some T) (hold : c.trap_old_state T = some old_state)
    (hnew : c.trap_new_state T = some new_state) :
    e.leaves c = .handed old_state new_state e.stored := by
  simp only [leaves, htrap, hold, hnew]

end Event

namespace Sched

variable {L : Layout} {v v' : Sched} {g : ProcId → Left} {p : ProcId} {off : Option ProcId}
  {e : Event} {s : State}

-- The notes agree with what the kernel has saved of the processes, all but the
-- one that is on the processor.
structure Stored (L : Layout) (off : Option ProcId) (g : ProcId → Left) (v : Sched) : Prop where
  saved : ∀ p ∉ v.free, some p ≠ off → (g p).Saved (v.context p).p_s
  awaits : ∀ d, ∀ p ∈ v.procs (some (L.device d)), (g p).AwaitsIo

-- The one on the processor goes on as the notes say.
structure Followed (L : Layout) (g : ProcId → Left) (v : Sched) : Prop where
  stored : v.Stored L v.running g
  loaded : ∀ s, v.cpu = .running s → ∃ p, v.running = some p ∧ (g p).Resumes v.areas s

section Stored

theorem Stored.shrink (h : v.Stored L off g) (hfree : ∀ p ∉ v'.free, p ∉ v.free)
    (hctx : ∀ p, (v'.context p).p_s = (v.context p).p_s)
    (hdev : ∀ d, ∀ p ∈ v'.procs (some (L.device d)), p ∈ v.procs (some (L.device d))) :
    v'.Stored L off g where
  saved p hp hne := by
    rw [hctx p]
    exact h.saved p (hfree p hp) hne
  awaits d p hp := h.awaits d p (hdev d p hp)

theorem Stored.congr (h : v.Stored L off g) (hq : v'.queue = v.queue) (hfree : v'.free = v.free)
    (hctx : ∀ p, (v'.context p).p_s = (v.context p).p_s) : v'.Stored L off g :=
  h.shrink (fun p hp => hfree ▸ hp) hctx fun d p hp => by rwa [procs, hq] at hp

theorem Stored.note (h : v.Stored L (some p) g) (hoff : ∀ s, p ∉ v.procs (some s)) (l : Left) :
    v.Stored L (some p) (Function.update g p l) where
  saved a ha hne := by
    have hap : a ≠ p := fun heq => hne (congrArg some heq)
    rw [Function.update_of_ne hap]
    exact h.saved a ha hne
  awaits d a ha := by
    have hap : a ≠ p := fun heq => hoff _ (heq ▸ ha)
    rw [Function.update_of_ne hap]
    exact h.awaits d a ha

theorem Stored.save (h : v.Stored L (some p) g) (hs : (g p).Saved s) :
    (v.saveState p s).Stored L none g where
  saved a ha _ := by
    by_cases hap : a = p
    · subst hap
      simpa [saveState, setContext] using hs
    · have hne : some a ≠ some p := fun heq => hap (Option.some.inj heq)
      simpa [saveState, setContext, hap] using h.saved a ha hne
  awaits := h.awaits

theorem Stored.weaken (h : v.Stored L none g) (off : Option ProcId) : v.Stored L off g :=
  ⟨fun p hp _ => h.saved p hp (by simp), h.awaits⟩

theorem p_s_schedule (v : Sched) (currentTime : Int) (p : ProcId) :
    ((v.schedule L currentTime).context p).p_s = (v.context p).p_s := by
  unfold schedule
  split
  · next a _ =>
    by_cases hap : p = a
    · subst hap
      simp [LDST, updateLastStartTime, setContext]
    · simp [LDST, updateLastStartTime, setContext, hap]
  · obtain ⟨cpu, timer, hv⟩ := v.intdeadlock_frame L
    rw [hv]

-- schedule loads what was saved of the first ready process.
theorem Stored.schedule (h : v.Stored L none g) (hlive : ∀ p ∈ v.procs none, p ∉ v.free)
    (currentTime : Int) : (v.schedule L currentTime).Followed L g where
  stored := (h.congr (schedule_queue ..) (schedule_free ..)
    (v.p_s_schedule currentTime)).weaken _
  loaded s hs := by
    cases hr : v.running with
    | none =>
        rw [Sched.schedule, hr] at hs
        exact absurd hs (v.intdeadlock_cpu L s)
    | some p =>
        refine ⟨p, ?_, ?_⟩
        · rw [running, schedule_queue]
          exact hr
        · rw [Sched.schedule, hr] at hs
          cases hs
          exact (h.saved p (hlive p (running_mem hr)) (by simp)).resumes _

theorem Stored.load (h : v.Stored L (some p) g) (hr : v.running = some p)
    (hs : (g p).Resumes v.areas s) : (v.LDST s).Followed L g where
  stored := by
    rw [show (v.LDST s).running = some p from hr]
    exact h.congr rfl rfl fun _ => rfl
  loaded t ht := by
    cases ht
    exact ⟨p, hr, hs⟩

end Stored

section Kill

theorem p_s_killAll (l : List ProcId) (v : Sched) (p : ProcId) :
    ((v.killAll l).context p).p_s = (v.context p).p_s := by
  induction l generalizing v with
  | nil => rfl
  | cons a l ih =>
      have hone : ((v.killOne a).context p).p_s = (v.context p).p_s := by
        by_cases hap : p = a
        · subst hap
          simp [killOne]
        · simp [killOne, hap]
      exact (ih (v.killOne a)).trans hone

theorem procs_remains_subset (v : Sched) (p : ProcId) (s : Addr) :
    (v.remains p).procs (some s) ⊆ v.procs (some s) := by
  intro a ha
  rw [procs_remains, if_neg (by simp)] at ha
  exact (List.mem_filter.mp ha).1

theorem p_s_remains (v : Sched) (p a : ProcId) :
    ((v.remains p).context a).p_s = (v.context a).p_s := by
  obtain ⟨cs, hcs⟩ := v.unlinkChild_frame p
  rw [remains, p_s_killAll, hcs]
  rfl

theorem Stored.killproc (h : v.Stored L (some p) g) (hst : v.Stable L) (hr : v.running = some p)
    (currentTime : Int) : (v.killproc L currentTime p).Followed L g := by
  have hremains : (v.remains p).Stored L none g := by
    refine ⟨fun a ha _ => ?_, fun d a ha => h.awaits d a (v.procs_remains_subset p _ ha)⟩
    rw [free_remains, List.mem_append, not_or] at ha
    have hap : a ≠ p := by
      rintro rfl
      exact ha.2 (self_mem_doomed (hst.except (R := ∅)) hr)
    rw [p_s_remains]
    exact h.saved a ha.1 fun heq => hap (Option.some.inj heq)
  exact hremains.schedule (((hst.except (R := ∅)).remains hr).live none) currentTime

end Kill

section Vector

theorem context_wake (v : Sched) (s : Addr) : (v.wake s).context = v.context := by
  obtain ⟨q, hq⟩ := v.frame_wake s
  rw [hq]

-- A vector saves the state of its caller when it makes the caller wait.
theorem p_s_semopStep (o : Vpop) (v : Sched) {b : Bool}
    (hb : b = true → (v.context p).p_s = v.SYS_TRAP_OLD_STATE) :
    ((v.semopStep o p b).2 = true →
      ((v.semopStep o p b).1.context p).p_s = v.SYS_TRAP_OLD_STATE) ∧
      ∀ a, a ≠ p → (v.semopStep o p b).1.context a = v.context a := by
  unfold semopStep
  dsimp only
  split
  · split
    · refine ⟨fun _ => ?_, fun a ha => ?_⟩
      · simp [insertBlocked, saveState, setContext, setSem]
      · simp [insertBlocked, saveState, setContext, setSem, ha]
    · exact ⟨hb, fun _ _ => rfl⟩
  · split
    · rw [context_wake]
      exact ⟨hb, fun _ _ => rfl⟩
    · exact ⟨hb, fun _ _ => rfl⟩

theorem p_s_semopLoop (ops : List Vpop) (v : Sched) {b : Bool}
    (hb : b = true → (v.context p).p_s = v.SYS_TRAP_OLD_STATE) :
    ((semopLoop ops p v b).2 = true →
      ((semopLoop ops p v b).1.context p).p_s = v.SYS_TRAP_OLD_STATE) ∧
      ∀ a, a ≠ p → (semopLoop ops p v b).1.context a = v.context a := by
  induction ops generalizing v b with
  | nil => exact ⟨hb, fun _ _ => rfl⟩
  | cons o ops ih =>
      obtain ⟨hself, hother⟩ := p_s_semopStep o v hb
      obtain ⟨q, sem, context, hframe⟩ := v.frame_semopStep o b (p := p)
      have hold : (v.semopStep o p b).1.SYS_TRAP_OLD_STATE = v.SYS_TRAP_OLD_STATE := by rw [hframe]
      obtain ⟨hself', hother'⟩ := ih (v.semopStep o p b).1 fun h => (hself h).trans hold.symm
      exact ⟨fun h => (hself' h).trans hold, fun a ha => (hother' a ha).trans (hother a ha)⟩

end Vector

section Call

-- A call comes back to its caller with only its results written.
abbrev Resumed (L : Layout) (g : ProcId → Left) (p : ProcId) (r : Ret Sched) : Prop :=
  r.Leaves (fun v => v.running = some p ∧ v.Stored L (some p) g ∧ (g p).Saved v.SYS_TRAP_OLD_STATE)
    fun v => v.Followed L g

theorem Stored.vectored (h : v.Stored L (some p) g) {ops : List Vpop}
    (hs : ∀ o ∈ ops, ¬ L.Reserved o.sem) : (v.vectored ops p).Stored L (some p) g := by
  obtain ⟨q, sem, context, hframe⟩ := v.frame_semopLoop ops false (p := p)
  have hother := (p_s_semopLoop (p := p) ops v (b := false) (by simp)).2
  have hfree : (v.vectored ops p).free = v.free := by
    unfold Sched.vectored
    dsimp only
    split <;> rw [hframe]
    rfl
  have hcontext : (v.vectored ops p).context = (semopLoop ops p v false).1.context := by
    unfold Sched.vectored
    dsimp only
    split <;> rfl
  refine ⟨fun a ha hne => ?_, fun d a ha => ?_⟩
  · rw [hfree] at ha
    rw [hcontext, hother a fun heq => hne (congrArg some heq)]
    exact h.saved a ha hne
  · rw [vectored_procs, (semopLoop_frame ops p v false fun o ho heq =>
      hs o ho (heq ▸ Or.inr ⟨d, rfl⟩)).2] at ha
    exact h.awaits d a ha

theorem Stored.semop (h : v.Stored L (some p) g) (hst : v.Stable L) (hr : v.running = some p)
    {ops : List Vpop} (hs : ∀ o ∈ ops, ¬ L.Reserved o.sem) (hnodup : (locks ops).Nodup)
    (hg : (g p).Saved v.SYS_TRAP_OLD_STATE) (currentTime : Int) :
    Resumed L g p (v.semop L currentTime ops p) := by
  have hvec := h.vectored hs
  obtain ⟨q, sem, context, hframe⟩ := v.frame_semopLoop ops false (p := p)
  rw [semop_eq]
  split
  · next hflag =>
    refine Stored.schedule ⟨fun a ha _ => ?_, hvec.awaits⟩ ((hst.vectored hr hs hnodup).live none)
      currentTime
    by_cases hap : a = p
    · subst hap
      have hsave := (p_s_semopLoop (p := a) ops v (b := false) (by simp)).1 hflag
      unfold Sched.vectored
      rw [if_pos hflag]
      exact hsave.symm ▸ hg
    · exact hvec.saved a ha fun heq => hap (Option.some.inj heq)
  · next hflag =>
    have heq : v.vectored ops p = (semopLoop ops p v false).1 := by
      unfold Sched.vectored
      rw [if_neg hflag]
    refine ⟨?_, hvec, ?_⟩
    · rw [heq]
      exact running_semopLoop hr ops false
    · rw [heq, hframe]
      exact hg

theorem Stored.createproc (h : v.Stored L (some p) g) (hst : v.Stable L) :
    (v.createproc p).Stored L (some p) (match v.free.head? with
      | some c => Function.update g c (.trapped (v.areas v.SYS_TRAP_OLD_STATE.d4) [])
      | none => g) := by
  by_cases hfree : v.free = []
  · have hnone : v.free.head? = none := by rw [hfree, List.head?_nil]
    rw [v.createproc_full hfree, hnone]
    exact h.congr rfl rfl fun _ => rfl
  · obtain ⟨c, rest, hfree⟩ := List.exists_cons_of_ne_nil hfree
    have hc : c ∈ v.free := hfree ▸ by simp
    rw [v.createproc_cons hfree, hfree]
    refine ⟨fun a ha hne => ?_, fun d a ha => ?_⟩
    · by_cases hac : a = c
      · subst hac
        simpa [insertReady, newborn, Left.Saved] using State.Agrees.refl [] _
      · have hlive : a ∉ v.free := by
          rw [hfree, List.mem_cons, not_or]
          exact ⟨hac, ha⟩
        simpa [insertReady, newborn, hac] using h.saved a hlive hne
    · rw [procs, queue_newborn] at ha
      have hac : a ≠ c := by
        rintro rfl
        exact hst.live _ a ha hc
      simpa [hac] using h.awaits d a ha

theorem createproc_old (v : Sched) (p : ProcId) :
    ∃ n, (v.createproc p).SYS_TRAP_OLD_STATE = v.SYS_TRAP_OLD_STATE.setD2 n := by
  by_cases hfree : v.free = []
  · rw [v.createproc_full hfree]
    exact ⟨_, rfl⟩
  · obtain ⟨c, rest, hfree⟩ := List.exists_cons_of_ne_nil hfree
    rw [v.createproc_cons hfree]
    exact ⟨_, rfl⟩

theorem Stored.passUp (h : v.Stored L (some p) g) (hst : v.Stable L) (hr : v.running = some p)
    {T : TrapType} {old : State} (hg : ∀ old_state new_state,
      (v.context p).trap_old_state T = some old_state →
      (v.context p).trap_new_state T = some new_state → g p = .handed old_state new_state old)
    (currentTime : Int) : (v.passUp L currentTime T old p).Followed L g := by
  unfold Sched.passUp
  split
  · next old_state new_state hold hnew =>
    have hareas : ({ v.updateLastStartTime currentTime p with
        areas := Function.update v.areas old_state old } : Sched).Stored L (some p) g :=
      h.congr rfl rfl fun a => by
        by_cases hap : a = p
        · subst hap
          simp [updateLastStartTime, setContext]
        · simp [updateLastStartTime, setContext, hap]
    refine hareas.load hr ?_
    rw [hg old_state new_state hold hnew]
    exact ⟨by simp, rfl⟩
  · exact h.killproc hst hr currentTime

theorem Stored.trapstate (h : v.Stored L (some p) g) (hst : v.Stable L) (hr : v.running = some p)
    (hg : (g p).Saved v.SYS_TRAP_OLD_STATE) (currentTime : Int) :
    Resumed L g p (v.trapstate L currentTime p) := by
  unfold Sched.trapstate
  split
  · exact ⟨hr, h, hg⟩
  · dsimp only
    split
    · refine ⟨hr, h.congr rfl rfl fun a => ?_, hg⟩
      by_cases hap : a = p
      · subst hap
        simp [setContext]
      · simp [setContext, hap]
    · exact h.killproc hst hr currentTime

-- The state is saved before the process waits.
theorem Stored.wait (h : v.Stored L (some p) g) (hst : v.Stable L) (hr : v.running = some p)
    {s : Addr} (hio : ∀ d, s = L.device d → (g p).AwaitsIo)
    (hg : (g p).Saved v.SYS_TRAP_OLD_STATE) (currentTime : Int) :
    ((v.saveState p v.SYS_TRAP_OLD_STATE).wait L currentTime s p).Followed L g := by
  have hstable : (v.saveState p v.SYS_TRAP_OLD_STATE).Stable L := hst.congr rfl rfl rfl rfl rfl
  suffices hblock : ((v.saveState p v.SYS_TRAP_OLD_STATE).block s p).Stored L none g from
    hblock.schedule (((hstable.except (R := ∅)).block hr s).live none) currentTime
  refine ⟨(h.save hg).saved, fun d a ha => ?_⟩
  rw [Sched.block, procs_insertBlocked] at ha
  split at ha
  · next hds =>
    rw [List.mem_append, List.mem_singleton, procs_removeReady, if_neg (by simp)] at ha
    rcases ha with ha | rfl
    · exact h.awaits d a (Option.some.inj hds ▸ ha)
    · exact hio d (Option.some.inj hds).symm
  · rw [procs_removeReady, if_neg (by simp)] at ha
    exact h.awaits d a ha

theorem Stored.waitforio (h : v.Stored L (some p) g) (hst : v.Stable L) (hr : v.running = some p)
    (hio : (g p).AwaitsIo) (hg : (g p).Saved v.SYS_TRAP_OLD_STATE) (d : Device) (currentTime : Int) :
    Resumed L g p (v.waitforio L currentTime d p) := by
  unfold Sched.waitforio
  split
  · exact h.wait hst hr (fun _ _ => hio) hg currentTime
  · exact ⟨hr, h.congr rfl rfl fun _ => rfl, hg.results hio _ _⟩

theorem Stored.call (h : v.Stored L (some p) g) (hst : v.Stable L) (hr : v.running = some p)
    (hold : v.SYS_TRAP_OLD_STATE = e.old) (hareas : v.areas = e.areas)
    (hcall : e.call = some e.old.s_tmp.sys_no) (hap : Apart L e)
    (hdev : e.call = some 8 → ∃ d, deviceOf e.old.d4 = some d) :
    Resumed L (e.noted (some p) v.free.head? v.context g) p (v.call L e p) := by
  have hoff := hst.running_off hr
  -- all the calls that return leave only their results
  have hnote : ∀ n, e.call = some n → n ≠ 1 → 0 < n → n < 9 →
      e.noted (some p) v.free.head? v.context g = Function.update g p (.trapped e.old e.results) := by
    intro n hn hone hpos hlt
    rw [Event.noted_of_call (by rw [hn]; simpa using hone),
      Event.leaves_of_trap (Event.trap_of_call hn hpos hlt)]
  have hsaved : ∀ results, (Function.update g p (.trapped e.old results) p).Saved
      v.SYS_TRAP_OLD_STATE := by
    intro results
    rw [Function.update_self, hold]
    exact State.Agrees.refl results e.old
  have hstored := fun l => h.note hoff l
  unfold Sched.call
  rw [hold]
  split
  · next hno =>
    rw [hno] at hcall
    have hnoted : e.noted (some p) v.free.head? v.context g = match v.free.head? with
        | some c => Function.update (Function.update g p (e.leaves (v.context p))) c
            (.trapped (v.areas v.SYS_TRAP_OLD_STATE.d4) [])
        | none => Function.update g p (e.leaves (v.context p)) := by
      unfold Event.noted
      cases v.free.head? with
      | none => rfl
      | some c => rw [hareas, hold]; exact if_pos hcall
    obtain ⟨n, hn⟩ := v.createproc_old p
    refine ⟨running_createproc hr, hnoted ▸ (hstored _).createproc hst, ?_⟩
    rw [hn, hold, Event.noted_self fun c hc => ?_,
      Event.leaves_of_trap (Event.trap_of_call hcall (by decide) (by decide))]
    · exact (State.Agrees.refl _ _).setD2 (by simp [Event.results, hcall]) n
    · rintro rfl
      exact hst.live none p (running_mem hr) (List.mem_of_head? hc)
  · next hno =>
    rw [hno] at hcall
    rw [hnote 2 hcall (by decide) (by decide) (by decide)]
    exact (hstored _).killproc hst hr e.tOut
  · next hno =>
    rw [hno] at hcall
    rw [hnote 3 hcall (by decide) (by decide) (by decide)]
    exact (hstored _).semop hst hr (hap.reserved hcall) (hap.distinct hcall) (hsaved _) e.tOut
  · next hno =>
    rw [hno] at hcall
    rw [hnote 4 hcall (by decide) (by decide) (by decide)]
    have hrest := hstored (.trapped e.old e.results)
    rw [← hr] at hrest
    exact ⟨hrest.congr rfl rfl fun _ => rfl, fun s hs => by cases hs⟩
  · next hno =>
    rw [hno] at hcall
    rw [hnote 5 hcall (by decide) (by decide) (by decide)]
    exact (hstored _).trapstate hst hr (hsaved _) e.tOut
  · next hno =>
    rw [hno] at hcall
    rw [hnote 6 hcall (by decide) (by decide) (by decide)]
    refine ⟨hr, (hstored _).congr rfl rfl fun _ => rfl, ?_⟩
    rw [Function.update_self]
    exact (State.Agrees.refl _ _).setD2 (by simp [Event.results, hcall]) _
  · next hno =>
    rw [hno] at hcall
    rw [hnote 7 hcall (by decide) (by decide) (by decide)]
    refine (hstored _).wait hst hr (fun d hd => ?_) (hsaved _) e.tOut
    exact absurd hd.symm (L.device_ne_pseudoClock d)
  · next hno =>
    rw [hno] at hcall
    rw [hnote 8 hcall (by decide) (by decide) (by decide)]
    obtain ⟨d, hd⟩ := hdev hcall
    rw [hd]
    refine (hstored _).waitforio hst hr ?_ (hsaved _) d e.tOut
    simp [Left.AwaitsIo, Event.results, hcall]
  · next hone h2 h3 h4 h5 h6 h7 h8 =>
    obtain ⟨hk, hm, -⟩ := call_some hcall
    rw [Event.noted_of_call fun hc => hone (Option.some.inj (hcall.symm.trans hc))]
    refine (hstored _).passUp hst hr (fun old_state new_state ho hn => ?_) e.tOut
    have hno : e.old.s_tmp.sys_no = 0 ∨ 8 < e.old.s_tmp.sys_no := by grind
    have htrap : e.trap = some .SYSTRAP := Event.trap_eq hk hm hno
    have hstate : e.stored = e.old := by simp only [Event.stored, hk, if_neg hm]
    rw [Function.update_self, Event.leaves_handed htrap ho hn, hstate]

theorem Resumed.leave {r : Ret Sched} (h : Resumed L g p r) : (Sched.leave e p r).Followed L g := by
  cases r with
  | gone v => exact h
  | back v =>
      obtain ⟨hr, hstored, hsaved⟩ := h
      have htime : (v.updateLastStartTime e.tOut p).Stored L (some p) g :=
        hstored.congr rfl rfl fun a => by
          by_cases hap : a = p
          · subst hap
            simp [updateLastStartTime, setContext]
          · simp [updateLastStartTime, setContext, hap]
      exact htime.load hr (hsaved.resumes _)

theorem Stored.enter (h : v.Stored L (some p) g) : (v.enter e p).Stored L (some p) g :=
  h.congr rfl rfl fun a => by
    by_cases hap : a = p
    · subst hap
      simp [Sched.enter, updateTotalTimeOnProcessor, setContext]
    · simp [Sched.enter, updateTotalTimeOnProcessor, setContext, hap]

theorem Stored.trapsyshandler (h : v.Stored L (some p) g) (hst : v.Stable L)
    (hr : v.running = some p) (hkind : e.kind = .sys) (hap : Apart L e)
    (hdev : e.call = some 8 → ∃ d, deviceOf e.old.d4 = some d) :
    (v.trapsyshandler L e p).Followed L (e.noted (some p) v.free.head? v.context g) := by
  have hstable : (v.enter e p).Stable L := hst.congr rfl rfl rfl rfl rfl
  have hptr := v.enter_trap e p
  by_cases hmode : e.old.s_sr.ps_s = false ∧ e.old.s_tmp.sys_no < 9
  · have hcall : e.call = none := by simp only [Event.call, hkind, if_pos hmode]
    have htrap : e.trap = some .PROGTRAP := by simp only [Event.trap, hkind, if_pos hmode]
    have hstate : e.stored = { e.old with s_tmp := e.old.s_tmp.setPrTyp PRIVILEGE } := by
      simp only [Event.stored, hkind, if_pos hmode]
    rw [Sched.trapsyshandler, if_pos hmode, Event.noted_of_call (by simp [hcall])]
    refine Stored.passUp (v := { v.enter e p with
        SYS_TRAP_OLD_STATE := { e.old with s_tmp := e.old.s_tmp.setPrTyp PRIVILEGE } })
      ((h.enter.note (hst.running_off hr) _).congr rfl rfl fun _ => rfl)
      (hstable.congr rfl rfl rfl rfl rfl) hr (fun old_state new_state ho hn => ?_) e.tOut
    rw [Function.update_self, ← hstate]
    exact Event.leaves_handed htrap ((congrFun hptr.1 _).symm.trans ho)
      ((congrFun hptr.2 _).symm.trans hn)
  · have hcall := h.enter.call (e := e) hstable hr rfl rfl (Event.call_eq hkind hmode) hap hdev
    rw [Event.noted_congr hptr.1 hptr.2] at hcall
    rw [Sched.trapsyshandler, if_neg hmode]
    exact hcall.leave

end Call

section Interrupt

theorem Stored.wake (h : v.Stored L off g) (s : Addr) : (v.wake s).Stored L off g := by
  refine h.shrink (fun p hp => by rwa [free_wake] at hp) (fun p => by rw [context_wake])
    fun d p hp => ?_
  rw [procs_wake_some] at hp
  split at hp
  · next hs => exact hs ▸ List.mem_of_mem_tail hp
  · exact hp

theorem Stored.preempt (h : v.Stored L v.running g) {old : State}
    (hg : ∀ p, v.running = some p → (g p).Saved old) (tIn : Int) :
    (v.preempt tIn old).Stored L none g := by
  unfold Sched.preempt
  split
  · next hr => rwa [hr] at h
  · next p hr =>
    rw [hr] at h
    refine ⟨fun a ha _ => ?_, fun d a ha => ?_⟩
    · by_cases hap : a = p
      · subst hap
        simpa [insertReady, saveState, setContext] using hg a hr
      · have hne : some a ≠ some p := fun heq => hap (Option.some.inj heq)
        simpa [insertReady, saveState, updateTotalTimeOnProcessor, setContext, removeReady, hap]
          using h.saved a ha hne
    · rw [procs_insertReady, if_neg (by simp)] at ha
      refine h.awaits d a ?_
      rw [procs, ← v.queue_removeReady]
      exact ha

theorem Stored.tick (h : v.Stored L none g) : (v.tick L).Stored L none g := by
  unfold Sched.tick
  split
  · split
    · exact h.congr rfl rfl fun _ => rfl
    · have hset : (v.setSem L.PSEUDO_CLOCK_SEMAPHORE (toLong (v.sem L.PSEUDO_CLOCK_SEMAPHORE + 1))).Stored L
          none g := h.congr rfl rfl fun _ => rfl
      exact (hset.wake _).congr rfl rfl fun _ => rfl
  · exact h

-- The results of SYS8 are written into what was saved of its caller.
theorem Stored.inthandler (h : v.Stored L off g) (d : Device) (reg : DevReg) :
    (v.inthandler L d reg).Stored L off g := by
  unfold Sched.inthandler
  split
  · split
    · exact h
    · next p hp =>
      have hm := List.mem_of_head? hp
      have hsave : ((v.saveState p (((v.context p).p_s.setD2 reg.d_dadd).setD3 reg.d_stat)).setSem
          (L.device d) 0).Stored L off g := by
        refine ⟨fun a ha hne => ?_, h.awaits⟩
        by_cases hap : a = p
        · subst hap
          have hres := (h.saved a ha hne).results (h.awaits d a hm) reg.d_dadd reg.d_stat
          simpa [setSem, saveState, setContext] using hres
        · simpa [setSem, saveState, setContext, hap] using h.saved a ha hne
      exact hsave.wake _
  · exact h.congr rfl rfl fun _ => rfl

-- An interrupt finds the running process in the state it saved.
theorem Followed.interrupted (h : v.Followed L g) (hst : v.Stable L) (htrap : e.trap = none)
    (hcall : e.call = none) : v.Stored L v.running (e.noted v.running v.free.head? v.context g) ∧
      ∀ p, v.running = some p →
        (e.noted v.running v.free.head? v.context g p).Saved e.old := by
  have hstored := h.stored
  cases hr : v.running with
  | none =>
      have hnoted : e.noted none v.free.head? v.context g = g := by
        cases hfree : v.free.head? <;> simp [Event.noted, hcall]
      rw [hr] at hstored
      rw [hnoted]
      exact ⟨hstored, by simp⟩
  | some p =>
      rw [hr] at hstored
      rw [Event.noted_of_call (by simp [hcall])]
      refine ⟨hstored.note (hst.running_off hr) _, fun a ha => ?_⟩
      cases ha
      rw [Function.update_self, Event.leaves_of_trap htrap]
      exact State.Agrees.refl _ _

theorem Stored.intclockhandler (h : v.Stored L v.running g) (hst : v.Stable L) {old : State}
    (hg : ∀ p, v.running = some p → (g p).Saved old) (tIn tOut : Int) :
    (v.intclockhandler L tIn tOut old).Followed L g := by
  have hclock : ({ v with PSEUDO_CLOCK := v.PSEUDO_CLOCK + QUANTUM } : Sched).Stable L :=
    hst.congr rfl rfl rfl rfl rfl
  have hpreempt := Stored.preempt (v := { v with PSEUDO_CLOCK := v.PSEUDO_CLOCK + QUANTUM })
    (h.congr rfl rfl fun _ => rfl) hg tIn
  exact hpreempt.tick.schedule (((hclock.except (R := ∅)).preempt tIn old).tick.live none) tOut

theorem Stored.intdevicehandler (h : v.Stored L v.running g) (hst : v.Stable L) {old : State}
    (hg : ∀ p, v.running = some p → (g p).Saved old) (d : Device) (reg : DevReg)
    (currentTime : Int) : (v.intdevicehandler L currentTime old d reg).Followed L g := by
  have hint := h.inthandler d reg
  unfold Sched.intdevicehandler
  dsimp only
  split
  · next hq =>
    have hr : v.running = none := by rw [running, hq]; rfl
    rw [hr] at hint
    exact hint.schedule (((hst.except (R := ∅)).inthandler d reg).live none) currentTime
  · next hq =>
    obtain ⟨p, hr⟩ := running_of_ready hq
    rw [hr] at hint
    exact hint.load (running_inthandler hr d reg) ((hg p hr).resumes _)

end Interrupt

-- An entry keeps the notes.
theorem Followed.step (h : v.Followed L g) (hw : v.Wf L) (hexp : v.Expects e) (hap : Apart L e)
    (hdev : e.call = some 8 → ∃ d, deviceOf e.old.d4 = some d) :
    (v.step L e).Followed L (e.noted v.running v.free.head? v.context g) := by
  have hst := hw.toStable
  have hareas : ({ v with areas := e.areas } : Sched).Stable L := hst.congr rfl rfl rfl rfl rfl
  have hpass : ∀ p T, v.running = some p → e.trap = some T → e.kind ≠ .sys →
      ({ v with areas := e.areas }.passUp L e.tOut T e.old p).Followed L
        (e.noted (some p) v.free.head? v.context g) := by
    intro p T hr htrap hk
    have hcall : e.call = none := Event.call_none hk
    have hstored := h.stored
    rw [hr] at hstored
    rw [Event.noted_of_call (by simp [hcall])]
    refine Stored.passUp (v := { v with areas := e.areas })
      ((hstored.note (hst.running_off hr) _).congr rfl rfl fun _ => rfl) hareas hr
      (fun old_state new_state ho hn => ?_) e.tOut
    rw [Function.update_self, Event.leaves_handed htrap ho hn, Event.stored_eq hk]
  unfold Sched.step
  cases hk : e.kind with
  | sys =>
      obtain ⟨p, hr⟩ := hexp.running (Or.inl hk)
      have hstored := h.stored
      rw [hr] at hstored
      simp only [hr]
      exact hstored.trapsyshandler hst hr hk hap hdev
  | mm =>
      obtain ⟨p, hr⟩ := hexp.running (Or.inr (Or.inl hk))
      simp only [hr]
      exact hpass p .MMTRAP hr (by simp only [Event.trap, hk]) (by simp [hk])
  | prog =>
      obtain ⟨p, hr⟩ := hexp.running (Or.inr (Or.inr hk))
      simp only [hr]
      exact hpass p .PROGTRAP hr (by simp only [Event.trap, hk]) (by simp [hk])
  | clock =>
      obtain ⟨hstored, hsaved⟩ := h.interrupted hst (e := e) (by simp only [Event.trap, hk])
        (by simp only [Event.call, hk])
      exact Stored.intclockhandler (v := { v with areas := e.areas, intervalTimer := none })
        (hstored.congr rfl rfl fun _ => rfl) (hareas.congr rfl rfl rfl rfl rfl) hsaved e.tIn e.tOut
  | device type reg =>
      obtain ⟨d, hd⟩ := hexp.device type reg hk
      simp only [hd]
      obtain ⟨hstored, hsaved⟩ := h.interrupted hst (e := e) (by simp only [Event.trap, hk])
        (by simp only [Event.call, hk])
      exact Stored.intdevicehandler (v := { v with areas := e.areas })
        (hstored.congr rfl rfl fun _ => rfl) hareas hsaved d reg e.tOut

end Sched

end Hoca
