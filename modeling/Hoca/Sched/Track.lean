import Hoca.Sched.Device

namespace Hoca

open Forest

-- How far the operation on a device is. Its process has started it, waits for the
-- interrupt in SYS8, has had the interrupt without SYS8, or is about to return from
-- SYS8. It may also be gone before the interrupt.
inductive Phase where
  | idle
  | started (p : ProcId)
  | waiting (p : ProcId)
  | saved (p : ProcId) (reg : DevReg)
  | handed (p : ProcId) (reg : DevReg)
  | orphaned
deriving DecidableEq

namespace Phase

-- Who may call SYS8 for the operation.
def caller : Phase → Option ProcId
  | .started p => some p
  | .saved p _ => some p
  | _ => none

-- Its interrupt is still to come.
def Pending : Phase → Prop
  | .started _ => True
  | .waiting _ => True
  | .orphaned => True
  | _ => False

instance : DecidablePred Pending
  | .started _ | .waiting _ | .orphaned => isTrue trivial
  | .idle | .saved _ _ | .handed _ _ => isFalse id

theorem caller_cases {phase : Phase} {p : ProcId} (h : phase.caller = some p) :
    phase = .started p ∨ ∃ reg, phase = .saved p reg := by
  cases phase with
  | started q => exact Or.inl (congrArg Phase.started (Option.some.inj h))
  | saved q reg => exact Or.inr ⟨reg, congrArg (Phase.saved · reg) (Option.some.inj h)⟩
  | _ => cases h

end Phase

-- left counts the operations whose interrupt has come and whose SYS8 never will.
structure Track where
  phase : Phase
  left : ℕ
deriving DecidableEq

-- A return from SYS8, with what the interrupt of the operation had reported by then.
structure Return where
  reported : Option DevReg
  d2 : Int
  d3 : Int
deriving DecidableEq

def Return.Right (r : Return) : Prop := r.reported = some ⟨r.d2, r.d3⟩

instance : DecidablePred Return.Right := fun _ => inferInstanceAs (Decidable (_ = _))

namespace Track

def start (p : ProcId) (t : Track) : Track := { t with phase := .started p }

def call (p : ProcId) (t : Track) : Track :=
  match t.phase with
  | .started q => if q = p then { t with phase := .waiting p } else t
  | .saved q reg => if q = p then { t with phase := .handed p reg } else t
  | _ => t

def interrupt (reg : DevReg) (t : Track) : Track :=
  match t.phase with
  | .started p => { t with phase := .saved p reg }
  | .waiting p => { t with phase := .handed p reg }
  | .orphaned => { phase := .idle, left := t.left + 1 }
  | _ => t

def kill (free : List ProcId) (t : Track) : Track :=
  match t.phase with
  | .started p => if p ∈ free then { t with phase := .orphaned } else t
  | .waiting p => if p ∈ free then { t with phase := .orphaned } else t
  | .saved p _ => if p ∈ free then { phase := .idle, left := t.left + 1 } else t
  | .handed p _ => if p ∈ free then { t with phase := .idle } else t
  | _ => t

-- The process has the processor back.
def finish (p : ProcId) (t : Track) : Track :=
  match t.phase with
  | .waiting q => if q = p then { t with phase := .idle } else t
  | .handed q _ => if q = p then { t with phase := .idle } else t
  | _ => t

def result (p : ProcId) (s : State) (t : Track) : Option Return :=
  match t.phase with
  | .waiting q => if q = p then some ⟨none, s.d2, s.d3⟩ else none
  | .handed q reg => if q = p then some ⟨some reg, s.d2, s.d3⟩ else none
  | _ => none

def calls (e : Event) (d : Device) (running : Option ProcId) (t : Track) : Track :=
  match running with
  | some p => if e.call = some 8 ∧ deviceOf e.old.d4 = some d then t.call p else t
  | none => t

def interrupts (e : Event) (d : Device) (t : Track) : Track :=
  match e.kind with
  | .device _ reg => if e.device = some d then t.interrupt reg else t
  | _ => t

-- What an entry does to the operation on the device, with the running process
-- before and those that are free after.
def note (e : Event) (d : Device) (running : Option ProcId) (free : List ProcId) (t : Track) :
    Track :=
  ((t.calls e d running).interrupts e d).kill free

def settle (cpu : Cpu) (running : Option ProcId) (t : Track) : Track :=
  match cpu, running with
  | .running _, some p => t.finish p
  | _, _ => t

def returns (cpu : Cpu) (running : Option ProcId) (t : Track) : Option Return :=
  match cpu, running with
  | .running s, some p => t.result p s
  | _, _ => none

end Track

namespace Track

-- SYS8 is called by the process of the operation, once, and the device interrupts
-- once for an operation.
structure Cycles (e : Event) (d : Device) (running : Option ProcId) (t : Track) : Prop where
  call : e.call = some 8 → deviceOf e.old.d4 = some d → t.phase.caller = running
  interrupt : e.device = some d → t.phase.Pending

instance (e : Event) (d : Device) (running : Option ProcId) (t : Track) :
    Decidable (t.Cycles e d running) :=
  decidable_of_iff ((e.call = some 8 → deviceOf e.old.d4 = some d → t.phase.caller = running) ∧
      (e.device = some d → t.phase.Pending))
    ⟨fun h => ⟨h.1, h.2⟩, fun h => ⟨h.call, h.interrupt⟩⟩

-- SYS8 is not called before the interrupt where a completion has been left.
def Timely (e : Event) (d : Device) (t : Track) : Prop :=
  e.call = some 8 → deviceOf e.old.d4 = some d → t.phase.Pending → t.left = 0

instance (e : Event) (d : Device) (t : Track) : Decidable (t.Timely e d) :=
  inferInstanceAs (Decidable (_ → _ → _ → _))

-- Nothing has been left where an operation is under way.
structure Fresh (t : Track) : Prop where
  phase : t.phase ≠ .orphaned
  left : t.phase ≠ .idle → t.left = 0
  last : t.left ≤ 1

-- Nobody is dead whose interrupt is still to come.
def Spares (free : List ProcId) (t : Track) : Prop :=
  ∀ p, t.phase = .started p ∨ t.phase = .waiting p → p ∉ free

section Fresh

variable {t : Track} {e : Event} {d : Device} {running : Option ProcId} {free : List ProcId}

theorem Fresh.start (h : t.Fresh) (hleft : t.left = 0) (p : ProcId) : (t.start p).Fresh :=
  ⟨nofun, fun _ => hleft, h.last⟩

theorem Fresh.call (h : t.Fresh) (hs : t.Spares free) (p : ProcId) :
    (t.call p).Fresh ∧ (t.call p).Spares free := by
  unfold Track.call
  split
  · next q hphase =>
    split
    · next hq =>
      subst hq
      refine ⟨⟨nofun, fun _ => h.left (by rw [hphase]; nofun), h.last⟩, ?_⟩
      rintro a (ha | ha)
      · cases ha
      · cases ha
        exact hs q (Or.inl hphase)
    · exact ⟨h, hs⟩
  · next q reg hphase =>
    split
    · refine ⟨⟨nofun, fun _ => h.left (by rw [hphase]; nofun), h.last⟩, ?_⟩
      rintro a (ha | ha)
      · cases ha
      · cases ha
    · exact ⟨h, hs⟩
  · exact ⟨h, hs⟩

theorem Fresh.interrupt (h : t.Fresh) (hs : t.Spares free) (reg : DevReg) :
    (t.interrupt reg).Fresh ∧ (t.interrupt reg).Spares free := by
  unfold Track.interrupt
  split
  · next q hphase =>
    refine ⟨⟨nofun, fun _ => h.left (by rw [hphase]; nofun), h.last⟩, ?_⟩
    rintro a (ha | ha)
    · cases ha
    · cases ha
  · next q hphase =>
    refine ⟨⟨nofun, fun _ => h.left (by rw [hphase]; nofun), h.last⟩, ?_⟩
    rintro a (ha | ha)
    · cases ha
    · cases ha
  · next hphase => exact absurd hphase h.phase
  · exact ⟨h, hs⟩

theorem Fresh.kill (h : t.Fresh) (hs : t.Spares free) : (t.kill free).Fresh := by
  unfold Track.kill
  split
  · next p hphase =>
    rw [if_neg (hs p (Or.inl hphase))]
    exact h
  · next p hphase =>
    rw [if_neg (hs p (Or.inr hphase))]
    exact h
  · next p reg hphase =>
    have hleft := h.left (by rw [hphase]; nofun)
    split
    · exact ⟨nofun, fun hne => absurd rfl hne, by rw [hleft]⟩
    · exact h
  · next p reg hphase =>
    split
    · exact ⟨nofun, fun hne => absurd rfl hne, h.last⟩
    · exact h
  · exact h

theorem Fresh.note (h : t.Fresh) (hs : t.Spares free) : (t.note e d running free).Fresh := by
  have hcalls : (t.calls e d running).Fresh ∧ (t.calls e d running).Spares free := by
    unfold calls
    split
    · split
      · exact h.call hs _
      · exact ⟨h, hs⟩
    · exact ⟨h, hs⟩
  obtain ⟨h', hs'⟩ := hcalls
  have hinterrupts : ((t.calls e d running).interrupts e d).Fresh ∧
      ((t.calls e d running).interrupts e d).Spares free := by
    unfold interrupts
    split
    · split
      · exact h'.interrupt hs' _
      · exact ⟨h', hs'⟩
    · exact ⟨h', hs'⟩
  exact hinterrupts.1.kill hinterrupts.2

theorem Fresh.settle (h : t.Fresh) (cpu : Cpu) (running : Option ProcId) :
    (t.settle cpu running).Fresh := by
  unfold Track.settle
  split
  · unfold Track.finish
    split
    · split
      · exact ⟨nofun, fun hne => absurd rfl hne, h.last⟩
      · exact h
    · split
      · exact ⟨nofun, fun hne => absurd rfl hne, h.last⟩
      · exact h
    · exact h
  · exact h

end Fresh

end Track

namespace Sched

variable {L : Layout} {v v' w : Sched} {p a : ProcId} {d : Device} {e : Event} {t : Track}
  {type : DeviceType} {reg : DevReg} {s : State}

-- The state that the process goes on with.
def Carries (v : Sched) (p : ProcId) (s : State) : Prop :=
  if v.running = some p then v.cpu = .running s else (v.context p).p_s = s

-- What the semaphore of a device and its queue say about the operation.
def Owes (L : Layout) (v : Sched) (d : Device) (t : Track) : Prop :=
  match t.phase with
  | .idle => v.sem (L.device d) = t.left ∧ v.procs (some (L.device d)) = []
  | .orphaned => v.sem (L.device d) = t.left ∧ v.procs (some (L.device d)) = []
  | .started p => v.sem (L.device d) = t.left ∧ v.procs (some (L.device d)) = [] ∧ p ∉ v.free
  | .waiting p => v.sem (L.device d) = -1 ∧ v.procs (some (L.device d)) = [p] ∧ t.left = 0
  | .saved p reg => v.sem (L.device d) = t.left + 1 ∧ v.procs (some (L.device d)) = [] ∧
      p ∉ v.free ∧ v.deviceCompletionStats d = ⟨reg.d_stat, reg.d_dadd⟩
  | .handed p reg => v.sem (L.device d) = t.left ∧ v.procs (some (L.device d)) = [] ∧
      p ∈ v.procs none ∧ ∃ s, v.Carries p s ∧ s.d2 = reg.d_dadd ∧ s.d3 = reg.d_stat

-- Between the entries whoever is in SYS8 is not on the processor.
structure Serves (L : Layout) (v : Sched) (d : Device) (t : Track) : Prop where
  owes : v.Owes L d t
  off : ∀ p reg, t.phase = .handed p reg → v.running ≠ some p

theorem carries_step (hr : v.running ≠ some p) (hs : ((v.step L e).context p).p_s = s) :
    (v.step L e).Carries p s := by
  unfold Carries
  split
  · next hr' =>
    rw [dispatched hr hr', hs]
  · exact hs

-- Who is ready, and not on the processor, stays so or gets it, unless it is killed.
theorem ready_step (h : v.Wf L) (ha : a ∈ v.procs none)
    (hr : v.running ≠ some a) (hfree : a ∉ (v.step L e).free) : a ∈ (v.step L e).procs none := by
  by_contra hn
  by_cases hcall : e.call = some 3
  · obtain ⟨p, hrun⟩ : ∃ p, v.running = some p := running_of_ready fun hnil => by
      rw [procs, hnil] at ha
      cases ha
    have hsame := same_step_vector (L := L) hrun hcall
    rw [hsame.procs] at hn
    exact hr (left_vectored (v := v.enter e p) hrun ha hn)
  · rcases (InOrder.step (e := e) h fun hc => absurd hc hcall).left none a ha hn with hf | hhead
    · exact hfree hf
    · rw [procs, List.head?_map] at hhead
      exact hr hhead

section Elsewhere

theorem Serves.elsewhere (h : v.Serves L d t) (hw : v.Wf L)
    (hel : Elsewhere L d v (v.step L e)) : (v.step L e).Owes L d t := by
  have howes := h.owes
  have hoff := h.off
  unfold Owes at howes ⊢
  rw [hel.sem, hel.procs, hel.stats]
  split at howes
  · exact howes
  · exact howes
  · exact ⟨howes.1, howes.2.1, fun hf => howes.2.2 (hel.free hf)⟩
  · exact howes
  · exact ⟨howes.1, howes.2.1, fun hf => howes.2.2.1 (hel.free hf), howes.2.2.2⟩
  · next p reg hphase =>
    obtain ⟨hsem, hq, hready, s, hs, hres⟩ := howes
    have hr := hoff p reg hphase
    rw [Carries, if_neg hr] at hs
    refine ⟨hsem, hq, ?_, s, ?_, hres⟩
    · exact ready_step hw hready hr fun hf => hw.live none p hready (hel.free hf)
    · exact carries_step hr ((p_s_step hw hready hr).trans hs)

theorem stats_remains (v : Sched) (p : ProcId) :
    (v.remains p).deviceCompletionStats = v.deviceCompletionStats := by
  have hkill : ∀ (l : List ProcId) (u : Sched),
      (u.killAll l).deviceCompletionStats = u.deviceCompletionStats := by
    intro l
    induction l with
    | nil => exact fun _ => rfl
    | cons a l ih => exact fun u => ih (u.killOne a)
  obtain ⟨cs, hcs⟩ := v.unlinkChild_frame p
  rw [remains, hkill, hcs]
  rfl

-- What a death leaves of the queue of a device, and of its semaphore.
theorem device_remains (hw : v.Wf L) (p : ProcId) (d : Device) (hroom : v.Roomy (L.device d)) :
    (v.remains p).procs (some (L.device d)) =
        (v.procs (some (L.device d))).filter (fun a => a ∉ progeny v.children MAXPROC p) ∧
      (v.remains p).sem (L.device d) = v.sem (L.device d) + (v.procs (some (L.device d))).length -
        ((v.procs (some (L.device d))).filter
          (fun a => a ∉ progeny v.children MAXPROC p)).length := by
  have hlevel := level_remains (v := v) (p := p) hroom fun a _ =>
    List.nodup_iff_count_le_one.mp (hw.distinct (some (L.device d))) a
  rw [level, level, ← length_procs, ← length_procs, procs_remains, if_neg (by simp)] at hlevel
  rw [procs_remains, if_neg (by simp)]
  exact ⟨rfl, by omega⟩

-- Whoever waits for the device is alone, and its semaphore is at -1.
theorem Owes.room (h : v.Owes L d t) : v.Roomy (L.device d) := by
  intro hne
  have hne' : v.procs (some (L.device d)) ≠ [] := fun hnil => hne (List.map_eq_nil_iff.mp hnil)
  unfold Owes at h
  split at h
  · exact absurd h.2 hne'
  · exact absurd h.2 hne'
  · exact absurd h.2.1 hne'
  · rw [level, h.1, ← length_procs, h.2.1, List.length_singleton]
    decide
  · exact absurd h.2.1 hne'
  · exact absurd h.2.1 hne'

theorem Owes.answers (h : v.Owes L d t) (hd : e.device = some d) : v.Answers L e := by
  intro d' hd' hsem
  cases hd.symm.trans hd'
  unfold Owes at h
  split at h
  · omega
  · omega
  · omega
  · rw [h.2.1]
    exact List.cons_ne_nil _ _
  · omega
  · omega

theorem Serves.remains (h : v.Serves L d t) (hw : v.Wf L)
    (hs : Same v.running (v.remains p) (v.step L e)) :
    (v.step L e).Owes L d (t.kill (v.step L e).free) := by
  have howes := h.owes
  have hoff := h.off
  obtain ⟨hprocs, hsem⟩ := device_remains hw p d howes.room
  rw [← hs.procs] at hprocs
  rw [← congrFun hs.sem] at hsem
  have hstats : (v.step L e).deviceCompletionStats d = v.deviceCompletionStats d := by
    rw [hs.stats, stats_remains]
  have hfree : ∀ a, a ∉ v.free →
      (a ∈ (v.step L e).free ↔ a ∈ progeny v.children MAXPROC p) := by
    intro a ha
    rw [hs.free, free_remains, List.mem_append, or_iff_right ha]
  unfold Owes at howes
  split at howes
  · next hphase =>
    rw [howes.2] at hprocs hsem
    simp only [Track.kill, Owes, hphase]
    exact ⟨by simpa [howes.1] using hsem, hprocs⟩
  · next hphase =>
    rw [howes.2] at hprocs hsem
    simp only [Track.kill, Owes, hphase]
    exact ⟨by simpa [howes.1] using hsem, hprocs⟩
  · next a hphase =>
    rw [howes.2.1] at hprocs hsem
    have hsem' : (v.step L e).sem (L.device d) = t.left := by simpa [howes.1] using hsem
    simp only [Track.kill, hphase]
    by_cases ha : a ∈ (v.step L e).free
    · rw [if_pos ha]
      exact ⟨hsem', hprocs⟩
    · rw [if_neg ha]
      simp only [Owes, hphase]
      exact ⟨hsem', hprocs, ha⟩
  · next a hphase =>
    have hlive : a ∉ v.free := hw.live (some (L.device d)) a (by rw [howes.2.1]; simp)
    rw [howes.2.1] at hprocs hsem
    simp only [Track.kill, hphase]
    by_cases ha : a ∈ (v.step L e).free
    · rw [if_pos ha]
      have hdead := (hfree a hlive).mp ha
      simp only [List.filter_cons, hdead, not_true, decide_false, Bool.false_eq_true, if_false,
        List.filter_nil, List.length_cons, List.length_nil, howes.1] at hprocs hsem
      simp only [Owes, howes.2.2]
      exact ⟨by simpa using hsem, hprocs⟩
    · rw [if_neg ha]
      have hdead : a ∉ progeny v.children MAXPROC p := fun hm => ha ((hfree a hlive).mpr hm)
      simp only [List.filter_cons, hdead, not_false_eq_true, decide_true, if_true,
        List.filter_nil, List.length_cons, List.length_nil, howes.1] at hprocs hsem
      simp only [Owes, hphase]
      exact ⟨by simpa using hsem, hprocs, howes.2.2⟩
  · next a reg hphase =>
    rw [howes.2.1] at hprocs hsem
    have hsem' : (v.step L e).sem (L.device d) = t.left + 1 := by simpa [howes.1] using hsem
    simp only [Track.kill, hphase]
    by_cases ha : a ∈ (v.step L e).free
    · rw [if_pos ha]
      simp only [Owes, Nat.cast_add, Nat.cast_one]
      exact ⟨hsem', hprocs⟩
    · rw [if_neg ha]
      simp only [Owes, hphase]
      exact ⟨hsem', hprocs, ha, hstats.trans howes.2.2.2⟩
  · next a reg hphase =>
    obtain ⟨hold, hq, hready, s, hcarry, hres⟩ := howes
    rw [hq] at hprocs hsem
    have hsem' : (v.step L e).sem (L.device d) = t.left := by simpa [hold] using hsem
    simp only [Track.kill, hphase]
    by_cases ha : a ∈ (v.step L e).free
    · rw [if_pos ha]
      exact ⟨hsem', hprocs⟩
    · rw [if_neg ha]
      have hr := hoff a reg hphase
      rw [Carries, if_neg hr] at hcarry
      simp only [Owes, hphase]
      exact ⟨hsem', hprocs, ready_step hw hready hr ha, s,
        carries_step hr ((p_s_step hw hready hr).trans hcarry), hres⟩

end Elsewhere

section Call

-- SYS8 by the process of the operation. It does not take what another one has left.
theorem Serves.call (h : v.Serves L d t) (hr : v.running = some p)
    (hcall : e.call = some 8) (hd : deviceOf e.old.d4 = some d)
    (hcaller : t.phase.caller = some p) (htimely : t.phase.Pending → t.left = 0) :
    (v.step L e).Owes L d (t.call p) := by
  have howes := h.owes
  rcases Phase.caller_cases hcaller with hphase | ⟨reg, hphase⟩
  · have hleft := htimely (by rw [hphase]; trivial)
    simp only [Owes, hphase] at howes
    obtain ⟨hsem, hq, hlive⟩ := howes
    rcases step_waitforio (L := L) hr hcall hd with ⟨-, hs⟩ | ⟨hpos, -, -⟩
    · have hprocs : (v.step L e).procs (some (L.device d)) = [p] := by
        rw [hs.procs, Sched.block, procs_insertBlocked, if_pos rfl, procs_removeReady,
          if_neg (by simp)]
        show v.procs (some (L.device d)) ++ [p] = [p]
        rw [hq, List.nil_append]
      have hword : (v.step L e).sem (L.device d) = -1 := by
        rw [hs.sem]
        show Function.update v.sem (L.device d) (toLong (v.sem (L.device d) - 1)) (L.device d) = -1
        rw [Function.update_self, hsem, hleft]
        rfl
      simp only [Track.call, hphase, if_true, Owes]
      exact ⟨hword, hprocs, hleft⟩
    · omega
  · simp only [Owes, hphase] at howes
    obtain ⟨hsem, hq, hlive, hstats⟩ := howes
    rcases step_waitforio (L := L) hr hcall hd with ⟨hz, -⟩ | ⟨-, hs, hcpu⟩
    · omega
    · have hrun : (v.step L e).running = some p := by
        rw [hs.running]
        exact hr
      have hword : (v.step L e).sem (L.device d) = t.left := by
        rw [hs.sem]
        show Function.update v.sem (L.device d) (v.sem (L.device d) - 1) (L.device d) = t.left
        rw [Function.update_self]
        omega
      simp only [Track.call, hphase, if_true, Owes]
      refine ⟨hword, (hs.procs _).trans hq, running_mem hrun, _, (if_pos hrun).mpr hcpu, ?_, ?_⟩
      · rw [hstats]
        simp [State.d2, State.setD2, State.setD3]
      · rw [hstats]
        simp [State.d3, State.setD3]

-- A SYS8 before the interrupt that takes what another one has left returns at once.
theorem Serves.call_early (h : v.Serves L d t) (hr : v.running = some p)
    (hcall : e.call = some 8) (hd : deviceOf e.old.d4 = some d) (hphase : t.phase = .started p)
    (hleft : t.left ≠ 0) : p ∉ (v.step L e).free ∧ (v.step L e).running = some p ∧
      ∃ s, (v.step L e).cpu = .running s := by
  have howes := h.owes
  simp only [Owes, hphase] at howes
  rcases step_waitforio (L := L) hr hcall hd with ⟨hz, -⟩ | ⟨-, hs, hcpu⟩
  · omega
  · refine ⟨?_, ?_, _, hcpu⟩
    · rw [hs.free]
      exact howes.2.2
    · rw [hs.running]
      exact hr

end Call

section Interrupt

-- The interrupt hands its results to the process that has waited longest.
theorem delivered (hw : v.Wf L) {rest : List ProcId}
    (hq : v.procs (some (L.device d)) = a :: rest)
    (hs : Same v.running (((v.saveState a
      (((v.context a).p_s.setD2 reg.d_dadd).setD3 reg.d_stat)).setSem (L.device d) 0).wake
        (L.device d)) (v.step L e)) :
    (v.step L e).sem (L.device d) = 0 ∧ (v.step L e).procs (some (L.device d)) = rest ∧
      a ∈ (v.step L e).procs none ∧
      ∃ s, (v.step L e).Carries a s ∧ s.d2 = reg.d_dadd ∧ s.d3 = reg.d_stat := by
  have hmem : a ∈ v.procs (some (L.device d)) := by
    rw [hq]
    exact List.mem_cons_self
  have hr : v.running ≠ some a := fun hr => hw.running_off hr (L.device d) hmem
  have hready : a ∈ (((v.saveState a
      (((v.context a).p_s.setD2 reg.d_dadd).setD3 reg.d_stat)).setSem (L.device d) 0).wake
        (L.device d)).procs none := by
    rcases wake_cases ((v.saveState a
      (((v.context a).p_s.setD2 reg.d_dadd).setD3 reg.d_stat)).setSem (L.device d) 0) (L.device d)
      with ⟨hnil, -⟩ | ⟨b, rest', hq', ⟨x, hx⟩, -⟩ | ⟨b, rest', hq', -, hwake⟩
    · exact absurd (hq.symm.trans hnil) (by simp)
    · obtain ⟨rfl, rfl⟩ := List.cons.inj (hq.symm.trans hq')
      rw [procs_removeBlocked] at hx
      split at hx
      · have hnodup := hw.distinct (some (L.device d))
        rw [hq] at hnodup
        change a ∈ (v.procs (some (L.device d))).tail at hx
        rw [hq] at hx
        exact absurd hx (List.nodup_cons.mp hnodup).1
      · next hne => exact absurd hx (hw.only _ (Or.inr ⟨d, rfl⟩) a hmem x hne)
    · obtain ⟨rfl, rfl⟩ := List.cons.inj (hq.symm.trans hq')
      rw [hwake, procs_insertReady, if_pos rfl]
      exact List.mem_append_right _ List.mem_cons_self
  refine ⟨?_, ?_, ?_, ?_⟩
  · rw [hs.sem, sem_wake]
    exact Function.update_self ..
  · rw [hs.procs, procs_wake_some, if_pos rfl]
    show (v.procs (some (L.device d))).tail = rest
    rw [hq, List.tail_cons]
  · rw [hs.procs]
    exact hready
  · refine ⟨((v.context a).p_s.setD2 reg.d_dadd).setD3 reg.d_stat,
      carries_step hr ((hs.p_s a (Ne.symm hr)).trans ?_), ?_, ?_⟩
    · rw [context_wake]
      simp [setSem, saveState, setContext]
    · simp [State.d2, State.setD2, State.setD3]
    · simp [State.d3, State.setD3]

theorem Serves.interrupt (h : v.Serves L d t) (hw : v.Wf L) (hkind : e.kind = .device type reg)
    (hd : e.device = some d) (hpending : t.phase.Pending) (hfit : t.left + 1 < 2 ^ 31) :
    (v.step L e).Owes L d (t.interrupt reg) := by
  have howes := h.owes
  have hcases := step_interrupt (howes.answers hd) hkind hd
  have hraise : toLong ((t.left : Int) + 1) = t.left + 1 := toLong_of_bounds (by omega) (by omega)
  cases hphase : t.phase with
  | started p =>
    simp only [Owes, hphase] at howes
    obtain ⟨hsem, hq, hlive⟩ := howes
    rcases hcases with ⟨hneg, -⟩ | ⟨-, hs⟩
    · omega
    · simp only [Track.interrupt, hphase, Owes]
      refine ⟨?_, (hs.procs _).trans hq, hs.free ▸ hlive, ?_⟩
      · rw [hs.sem]
        show Function.update v.sem (L.device d) (toLong (v.sem (L.device d) + 1)) (L.device d) = _
        rw [Function.update_self, hsem, hraise]
      · rw [hs.stats]
        exact Function.update_self ..
  | waiting p =>
    simp only [Owes, hphase] at howes
    obtain ⟨hsem, hq, hleft⟩ := howes
    rcases hcases with ⟨-, a, ha, hs⟩ | ⟨hne, -⟩
    · have hhead : a = p := by
        rw [hq, List.head?_cons] at ha
        exact (Option.some.inj ha).symm
      subst hhead
      obtain ⟨hsem', hq', hready, hcarry⟩ := delivered hw hq hs
      simp only [Track.interrupt, hphase, Owes, hleft]
      exact ⟨hsem', hq', hready, hcarry⟩
    · exact absurd hsem hne
  | orphaned =>
    simp only [Owes, hphase] at howes
    obtain ⟨hsem, hq⟩ := howes
    rcases hcases with ⟨hneg, -⟩ | ⟨-, hs⟩
    · omega
    · simp only [Track.interrupt, hphase, Owes, Nat.cast_add, Nat.cast_one]
      refine ⟨?_, (hs.procs _).trans hq⟩
      rw [hs.sem]
      show Function.update v.sem (L.device d) (toLong (v.sem (L.device d) + 1)) (L.device d) = _
      rw [Function.update_self, hsem, hraise]
  | _ =>
    rw [hphase] at hpending
    exact False.elim hpending

end Interrupt

-- The process of an operation is alive.
theorem Owes.live (h : v.Owes L d t) (hw : v.Wf L) : t.kill v.free = t := by
  unfold Owes at h
  unfold Track.kill
  split at h
  · next hphase => rw [hphase]
  · next hphase => rw [hphase]
  · next p hphase =>
    simp only [hphase]
    exact if_neg h.2.2
  · next p hphase =>
    simp only [hphase]
    apply if_neg
    apply hw.live (some (L.device d))
    rw [h.2.1]
    exact List.mem_cons_self
  · next p reg hphase =>
    simp only [hphase]
    exact if_neg h.2.2.1
  · next p reg hphase =>
    simp only [hphase]
    exact if_neg (hw.live none p h.2.2.1)

-- Whoever gets the processor back from SYS8 has its own results.
theorem Owes.settle (h : v.Owes L d t) (hw : v.Wf L) :
    v.Serves L d (t.settle v.cpu v.running) ∧ ∀ r, t.returns v.cpu v.running = some r → r.Right := by
  have hoff : ∀ p, t.phase = .waiting p → v.running ≠ some p := by
    intro p hphase hr
    simp only [Owes, hphase] at h
    apply hw.running_off hr (L.device d)
    rw [h.2.1]
    exact List.mem_cons_self
  by_cases hrun : ∃ s p, v.cpu = .running s ∧ v.running = some p
  · obtain ⟨s, p, hcpu, hr⟩ := hrun
    simp only [Track.settle, Track.returns, hcpu, hr]
    by_cases hhanded : ∃ reg, t.phase = .handed p reg
    · obtain ⟨reg, hphase⟩ := hhanded
      simp only [Owes, hphase] at h
      obtain ⟨hsem, hq, -, s', hcarry, hd2, hd3⟩ := h
      rw [Carries, if_pos hr, hcpu] at hcarry
      cases hcarry
      simp only [Track.finish, Track.result, hphase, if_true]
      refine ⟨⟨⟨hsem, hq⟩, nofun⟩, ?_⟩
      rintro r ⟨⟩
      show some reg = some _
      rw [hd2, hd3]
    · have hstay : t.finish p = t ∧ t.result p s = none := by
        unfold Track.finish Track.result
        cases hphase : t.phase with
        | waiting q =>
            have hne : q ≠ p := by
              rintro rfl
              exact hoff q hphase hr
            simp only [if_neg hne, and_self]
        | handed q reg =>
            have hne : q ≠ p := by
              rintro rfl
              exact hhanded ⟨reg, hphase⟩
            simp only [if_neg hne, and_self]
        | _ => exact ⟨rfl, rfl⟩
      rw [hstay.1, hstay.2]
      refine ⟨⟨h, fun q reg hphase hq => ?_⟩, nofun⟩
      cases hr.symm.trans hq
      exact hhanded ⟨reg, hphase⟩
  · have hstay : t.settle v.cpu v.running = t ∧ t.returns v.cpu v.running = none := by
      unfold Track.settle Track.returns
      split
      · next s p hcpu hr => exact absurd ⟨s, p, hcpu, hr⟩ hrun
      · exact ⟨rfl, rfl⟩
    rw [hstay.1, hstay.2]
    refine ⟨⟨h, fun q reg hphase hq => ?_⟩, nofun⟩
    simp only [Owes, hphase] at h
    obtain ⟨-, -, -, s, hcarry, -⟩ := h
    rw [Carries, if_pos hq] at hcarry
    exact hrun ⟨s, q, hcarry, hq⟩

-- Every entry takes the operation a step further.
theorem Serves.note (h : v.Serves L d t) (hw : v.Wf L) (hw' : (v.step L e).Wf L)
    (hap : Apart L e) (hexp : v.Expects e) (hcycle : t.Cycles e d v.running)
    (htimely : t.Timely e d) (hfit : t.left + 1 < 2 ^ 31) :
    (v.step L e).Owes L d (t.note e d v.running (v.step L e).free) := by
  by_cases hio : e.call = some 8 ∧ deviceOf e.old.d4 = some d
  · obtain ⟨hcall, hd⟩ := hio
    have hkind := (call_some hcall).1
    obtain ⟨p, hr⟩ := hexp.running (Or.inl hkind)
    have hcaller := (hcycle.call hcall hd).trans hr
    have howes := h.call hr hcall hd hcaller (htimely hcall hd)
    have hnote : t.note e d v.running (v.step L e).free = (t.call p).kill (v.step L e).free := by
      simp only [Track.note, Track.calls, Track.interrupts, hr, hkind, hcall, hd, and_self, if_true]
    rw [hnote, howes.live hw']
    exact howes
  · have hnone : t.calls e d v.running = t := by
      unfold Track.calls
      split
      · exact if_neg hio
      · rfl
    by_cases hdev : e.device = some d
    · obtain ⟨type, reg, hkind⟩ := device_kind hdev
      have howes := h.interrupt hw hkind hdev (hcycle.interrupt hdev) hfit
      have hnote : t.note e d v.running (v.step L e).free =
          (t.interrupt reg).kill (v.step L e).free := by
        simp only [Track.note, hnone, Track.interrupts, hkind, hdev, if_true]
      rw [hnote, howes.live hw']
      exact howes
    · have hnote : t.note e d v.running (v.step L e).free = t.kill (v.step L e).free := by
        simp only [Track.note, hnone, Track.interrupts, hdev, if_false]
        cases e.kind <;> rfl
      rw [hnote]
      rcases step_elsewhere hw hap (fun hcall hd => hio ⟨hcall, hd⟩) hdev with hel | ⟨p, hr, hs⟩
      · have howes := h.elsewhere hw hel
        rw [howes.live hw']
        exact howes
      · exact h.remains hw hs

end Sched

end Hoca
