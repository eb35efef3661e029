import Hoca.Order
import Hoca.Sched.Clock

namespace Hoca

open Fifo

variable {L : Layout} {U : Set Addr} {k k' : Kernel} {e : Event} {es : List Event} {p1 : State}
  {currentTime : Int} {p : ProcId} {n : ℕ}

-- How often the interval timer has interrupted.
def clocks (es : List Event) : ℕ := es.countP Event.isClock

namespace Kernel

section Timer

-- While a process is ready or waits for the pseudo clock, the interval timer runs;
-- and a ready process has the processor. Only SYS4 ends this.
structure OnTime (L : Layout) (k : Kernel) : Prop where
  busy : k.cpu ≠ .halted "" → k.abs.procs none ≠ [] →
    (∃ s, k.cpu = .running s) ∧ k.intervalTimer = some QUANTUM
  idle : k.abs.procs none = [] → k.abs.procs (some L.PSEUDO_CLOCK_SEMAPHORE) ≠ [] →
    k.cpu = .asleep ∧ k.intervalTimer = some QUANTUM

theorem main_attended (hmain : main L p1 currentTime k = some k') : k'.abs.Attended := by
  obtain ⟨k₁, hmain₁, -, habs⟩ := main_sound L p1 currentTime k
  rw [hmain] at hmain₁
  cases hmain₁
  rw [habs]
  exact Sched.attended_schedule _

theorem cpu_of_enabled (hen : k.Enabled e = true) (m : String) : k.cpu ≠ .halted m := by
  intro hc
  simp [Enabled, hc] at hen

theorem Paced.attended (h : k.Paced L) (hU : ∀ s ∈ U, ¬ L.Reserved s) (hd : Disciplined U e)
    (ha : k.abs.Attended) (hrun : Kernel.entry L e k = some k') : k'.abs.Attended := by
  have hen := enabled_of_entry hrun
  rw [(h.entry_eq (h.orderly hU hd) hrun).2]
  exact ha.step (h.wf.expects rfl hen) (cpu_of_enabled hen "") hd.device

theorem Sound.onTime (h : k.Sound L) (ha : k.abs.Attended) : k.OnTime L where
  busy hon hready := by
    have hq : k.abs.queue none ≠ [] := fun hq => hready (List.map_eq_nil_iff.mpr hq)
    obtain ⟨s, hs, htimer⟩ := (ha hq).resolve_right hon
    exact ⟨⟨s, hs⟩, htimer⟩
  idle hready hwait := by
    have hq : k.abs.queue none = [] := List.map_eq_nil_iff.mp hready
    have hw : k.abs.queue (some L.PSEUDO_CLOCK_SEMAPHORE) ≠ [] :=
      fun hw => hwait (List.map_eq_nil_iff.mpr hw)
    have hsettled := h.wf.settled hq
    unfold Sched.intdeadlock at hsettled
    rw [if_pos hw] at hsettled
    have hcpu := congrArg (fun v : Sched => v.cpu) hsettled
    have htimer := congrArg (fun v : Sched => v.intervalTimer) hsettled
    exact ⟨hcpu.symm, htimer.symm⟩

-- No process ever waits for a clock interrupt that does not come.
theorem run_on_time (L : Layout) (p1 : State) (currentTime : Int) (k : Kernel) :
    ∃ k₁, main L p1 currentTime k = some k₁ ∧
      ∀ es, (∀ e ∈ es, Disciplined L.user e) → ∀ k₂, Kernel.run L es k₁ = some k₂ →
        k₂.OnTime L := by
  obtain ⟨k₁, hmain, -, -⟩ := main_sound L p1 currentTime k
  have hres : ∀ s ∈ L.user, ¬ L.Reserved s := fun _ hs => hs
  refine ⟨k₁, hmain, fun es hes k₂ hrun => ?_⟩
  have hinv := Runs.run_invariant (I := fun k => k.Paced L ∧ k.abs.Attended)
    (P := fun _ e => Disciplined L.user e)
    (fun k e k' hk hd hent => ⟨hk.1.entry hres hd hent, hk.1.attended hres hd hk.2 hent⟩)
    ⟨main_paced hmain, main_attended hmain⟩ (Runs.along_of_forall (fun e he _ => hes e he) k₁) hrun
  exact hinv.1.toSound.onTime hinv.2

section Sample

open Sample

-- Two processes, and both wait for the pseudo clock.
def idlers : List Event := [fork, sys 7 0 0 0 [], sys 7 0 0 0 []]

theorem run_on_time_sample : ∃ k₁ k₂, main layout state 0 cold = some k₁ ∧
    Kernel.run layout (idlers ++ [clock, clock]) k₁ = some k₂ ∧
    k₂.abs.procs (some layout.PSEUDO_CLOCK_SEMAPHORE) = [0, 1] ∧
    k₂.cpu = .asleep ∧ k₂.intervalTimer = some QUANTUM := by
  obtain ⟨k₁, hmain, hall⟩ := run_on_time layout state 0 cold
  have hval : ((main layout state 0 cold).bind fun k =>
      (Kernel.run layout (idlers ++ [clock, clock]) k).map fun k' =>
        (k'.abs.procs none, k'.abs.procs (some layout.PSEUDO_CLOCK_SEMAPHORE))) =
      some ([], [0, 1]) := by decide +kernel
  rw [hmain, Option.bind_some] at hval
  obtain ⟨k₂, hrun, heq⟩ := Option.map_eq_some_iff.mp hval
  obtain ⟨hready, hwait⟩ := Prod.mk.inj heq
  have htime := hall _ (by decide) k₂ hrun
  obtain ⟨hcpu, htimer⟩ := htime.idle hready (by rw [hwait]; exact List.cons_ne_nil _ _)
  exact ⟨k₁, k₂, hmain, hrun, hwait, hcpu, htimer⟩

end Sample

end Timer

section Beat

-- What an entry does to those who wait for the pseudo clock: the clock lets the
-- first of them go when it starts again, a SYS7 puts its caller behind them, and
-- the others leave them alone, but for the dead.
structure Ticks (L : Layout) (k : Kernel) (e : Event) (k' : Kernel) : Prop where
  clock : e.kind = .clock → k'.abs.procs (some L.PSEUDO_CLOCK_SEMAPHORE) =
    if k'.PSEUDO_CLOCK = 0 then (k.abs.procs (some L.PSEUDO_CLOCK_SEMAPHORE)).tail
    else k.abs.procs (some L.PSEUDO_CLOCK_SEMAPHORE)
  released : e.kind = .clock → k'.PSEUDO_CLOCK = 0 →
    ∀ p, (k.abs.procs (some L.PSEUDO_CLOCK_SEMAPHORE)).head? = some p → p ∈ k'.abs.procs none
  wait : e.call = some 7 → ∀ p, k.running = some p →
    k'.abs.procs (some L.PSEUDO_CLOCK_SEMAPHORE) =
      k.abs.procs (some L.PSEUDO_CLOCK_SEMAPHORE) ++ [p]
  other : e.kind ≠ .clock → e.call ≠ some 7 →
    k'.abs.procs (some L.PSEUDO_CLOCK_SEMAPHORE) =
      (k.abs.procs (some L.PSEUDO_CLOCK_SEMAPHORE)).filter fun a => a ∉ k'.abs.free

-- The pseudo clock is at the end of its n-th beat of twenty.
def OnBeat (k : Kernel) (n : ℕ) : Prop := k.PSEUDO_CLOCK = QUANTUM * (n % 20 : ℕ)

theorem nextPseudoClock_beat (n : ℕ) :
    nextPseudoClock (QUANTUM * (n % 20 : ℕ)) = QUANTUM * ((n + 1) % 20 : ℕ) := by
  unfold nextPseudoClock
  simp only [QUANTUM]
  split <;> omega

theorem Paced.pseudoClock (h : k.Paced L) (hU : ∀ s ∈ U, ¬ L.Reserved s) (hd : Disciplined U e)
    (hrun : Kernel.entry L e k = some k') : k'.PSEUDO_CLOCK =
      if e.isClock then nextPseudoClock k.PSEUDO_CLOCK else k.PSEUDO_CLOCK := by
  have habs := (h.entry_eq (h.orderly hU hd) hrun).2
  have hstep := Sched.step_PSEUDO_CLOCK (L := L) (h.wf.expects rfl (enabled_of_entry hrun)) hd.device
  rw [← habs] at hstep
  exact hstep

theorem Paced.onBeat (h : k.Paced L) (hU : ∀ s ∈ U, ¬ L.Reserved s) (hd : Disciplined U e)
    (hn : k.OnBeat n) (hrun : Kernel.entry L e k = some k') :
    k'.OnBeat (n + if e.isClock then 1 else 0) := by
  rw [OnBeat, h.pseudoClock hU hd hrun]
  split
  · rw [hn, nextPseudoClock_beat]
  · exact hn

theorem main_onBeat (hmain : main L p1 currentTime k = some k') : k'.OnBeat 0 := by
  obtain ⟨k₁, hmain₁, -, habs⟩ := main_sound L p1 currentTime k
  rw [hmain] at hmain₁
  cases hmain₁
  have hboot : (Sched.boot L p1 currentTime k).PSEUDO_CLOCK = 0 := by
    rw [Sched.boot, Sched.schedule_PSEUDO_CLOCK]
    simp [Sched.first, Sched.initial, Sched.insertReady, Sched.saveState, Sched.setContext, init, intinit,
      load, initProc, initSemd]
  rw [← habs] at hboot
  exact hboot

theorem Paced.run_onBeat (h : k.Paced L) (hU : ∀ s ∈ U, ¬ L.Reserved s)
    (hd : ∀ e ∈ es, Disciplined U e) (hn : k.OnBeat n) (hrun : Kernel.run L es k = some k') :
    k'.OnBeat (n + clocks es) := by
  induction es generalizing k n with
  | nil =>
      cases hrun
      exact hn
  | cons e es ih =>
      obtain ⟨k₁, hent, hrun⟩ := Option.bind_eq_some_iff.mp hrun
      have hd₁ := hd e (by simp)
      have hrest := ih (h.entry hU hd₁ hent) (fun e' he' => hd e' (by simp [he']))
        (h.onBeat hU hd₁ hn hent) hrun
      rw [clocks, List.countP_cons]
      rw [clocks, Nat.add_assoc, Nat.add_comm (ite _ _ _)] at hrest
      exact hrest

theorem nextPseudoClock_eq_zero (hn : k.OnBeat n) :
    nextPseudoClock k.PSEUDO_CLOCK = 0 ↔ k.PSEUDO_CLOCK + QUANTUM ≥ 100000 := by
  rw [OnBeat] at hn
  unfold nextPseudoClock
  rw [hn]
  simp only [QUANTUM]
  split <;> omega

theorem Paced.ticks (h : k.Paced L) (hU : ∀ s ∈ U, ¬ L.Reserved s) (hd : Disciplined U e)
    (hn : k.OnBeat n) (hrun : Kernel.entry L e k = some k') : k.Ticks L e k' := by
  have habs := (h.entry_eq (h.orderly hU hd) hrun).2
  have hclock : e.kind = .clock →
      (k'.PSEUDO_CLOCK = 0 ↔ k.abs.PSEUDO_CLOCK + QUANTUM ≥ 100000) := by
    intro hk
    rw [h.pseudoClock hU hd hrun, if_pos (Event.isClock_iff.mpr hk)]
    exact nextPseudoClock_eq_zero hn
  refine ⟨fun hk => ?_, fun hk hzero p hp => ?_, fun hcall p hr => ?_, fun hk hcall => ?_⟩
  · rw [habs, Sched.procs_step_clock k.abs hk]
    exact if_congr (hclock hk).symm rfl rfl
  · rw [habs]
    exact Sched.released_step_clock h.wf hk ((hclock hk).mp hzero) hp
  · rw [habs]
    exact Sched.procs_step_wait (h.running_eq.symm.trans hr) hcall
  · rw [habs]
    exact (Sched.culls_step h.wf (Sched.avoids_pclock (hd.apart hU) hk hcall)
      (h.wf.toStable.except (R := ∅)).pclock_room).procs

-- The pseudo clock counts the interrupts of the clock, its semaphore counts those who
-- wait for it, and every twentieth interrupt lets go of the first of them, whatever
-- happens in between.
theorem run_pseudo_clock (L : Layout) (p1 : State) (currentTime : Int) (k : Kernel) :
    ∃ k₁, main L p1 currentTime k = some k₁ ∧
      ∀ es, (∀ e ∈ es, Disciplined L.user e) → ∀ k₂, Kernel.run L es k₁ = some k₂ →
        k₂.PSEUDO_CLOCK = QUANTUM * (clocks es % 20 : ℕ) ∧
        k₂.sem L.PSEUDO_CLOCK_SEMAPHORE =
          -((k₂.abs.procs (some L.PSEUDO_CLOCK_SEMAPHORE)).length : Int) ∧
        ∀ e k₃, Disciplined L.user e → Kernel.entry L e k₂ = some k₃ → k₂.Ticks L e k₃ := by
  obtain ⟨k₁, hmain, -, -⟩ := main_sound L p1 currentTime k
  have hres : ∀ s ∈ L.user, ¬ L.Reserved s := fun _ hs => hs
  refine ⟨k₁, hmain, fun es hes k₂ hrun => ?_⟩
  have hpaced := (main_paced hmain).run hres hes hrun
  have hbeat := (main_paced hmain).run_onBeat hres hes (main_onBeat hmain) hrun
  rw [Nat.zero_add] at hbeat
  refine ⟨hbeat, ?_, fun e k₃ hd hent => hpaced.ticks hres hd hbeat hent⟩
  have hlevel := hpaced.wf.pclock
  rw [Sched.level, ← Sched.length_procs] at hlevel
  have hsem : k₂.abs.sem L.PSEUDO_CLOCK_SEMAPHORE = k₂.sem L.PSEUDO_CLOCK_SEMAPHORE := rfl
  omega

section Sample

open Sample

-- The twentieth interrupt of the clock lets the first process go.
theorem run_pseudo_clock_sample : ∃ k₁ k₂ k₃, main layout state 0 cold = some k₁ ∧
    Kernel.run layout (idlers ++ List.replicate 19 clock) k₁ = some k₂ ∧
    Kernel.entry layout clock k₂ = some k₃ ∧ k₂.PSEUDO_CLOCK = QUANTUM * 19 ∧
    k₂.sem layout.PSEUDO_CLOCK_SEMAPHORE = -2 ∧
    k₃.abs.procs (some layout.PSEUDO_CLOCK_SEMAPHORE) = [1] ∧ 0 ∈ k₃.abs.procs none := by
  obtain ⟨k₁, hmain, hall⟩ := run_pseudo_clock layout state 0 cold
  have hval : ((main layout state 0 cold).bind fun k =>
      (Kernel.run layout (idlers ++ List.replicate 19 clock) k).bind fun k' =>
        (Kernel.entry layout clock k').map fun k'' =>
          (k'.abs.procs (some layout.PSEUDO_CLOCK_SEMAPHORE), k''.PSEUDO_CLOCK)) =
      some ([0, 1], 0) := by decide +kernel
  rw [hmain, Option.bind_some] at hval
  obtain ⟨k₂, hrun, hval⟩ := Option.bind_eq_some_iff.mp hval
  obtain ⟨k₃, hent, heq⟩ := Option.map_eq_some_iff.mp hval
  obtain ⟨hwait, hzero⟩ := Prod.mk.inj heq
  obtain ⟨hbeat, hword, hnext⟩ := hall _ (by decide) k₂ hrun
  have hticks := hnext clock k₃ (by decide) hent
  have hqueue := hticks.clock rfl
  rw [if_pos hzero, hwait] at hqueue
  rw [hwait] at hword
  exact ⟨k₁, k₂, k₃, hmain, hrun, hent, hbeat, hword, hqueue,
    hticks.released rfl hzero 0 (by rw [hwait]; rfl)⟩

end Sample

end Beat

section Wait

-- The interrupts that a process at this place has to wait for at most.
def beatsLeft (L : Layout) (p : ProcId) (k : Kernel) : ℕ :=
  20 * ((k.abs.procs (some L.PSEUDO_CLOCK_SEMAPHORE)).idxOf p + 1) -
    (k.PSEUDO_CLOCK / QUANTUM).toNat

theorem OnBeat.phase (hn : k.OnBeat n) : (k.PSEUDO_CLOCK / QUANTUM).toNat = n % 20 := by
  rw [hn, Int.mul_ediv_cancel_left _ (by decide)]
  exact Int.toNat_natCast _

theorem Ticks.beatsLeft (h : k.Ticks L e k') (hk : k.Paced L) (hU : ∀ s ∈ U, ¬ L.Reserved s)
    (hd : Disciplined U e) (hn : k.OnBeat n) (hrun : Kernel.entry L e k = some k')
    (hp : p ∈ k.abs.procs (some L.PSEUDO_CLOCK_SEMAPHORE))
    (hp' : p ∈ k'.abs.procs (some L.PSEUDO_CLOCK_SEMAPHORE)) :
    k'.beatsLeft L p + (if e.isClock then 1 else 0) ≤ k.beatsLeft L p := by
  have hn' := hk.onBeat hU hd hn hrun
  have hnodup := hk.wf.distinct (some L.PSEUDO_CLOCK_SEMAPHORE)
  have hlt := Nat.mod_lt n (by decide : 0 < 20)
  unfold Kernel.beatsLeft
  rw [hn.phase, hn'.phase]
  by_cases hclock : e.kind = .clock
  · rw [if_pos (Event.isClock_iff.mpr hclock)]
    have hprocs := h.clock hclock
    rw [hn', if_pos (Event.isClock_iff.mpr hclock)] at hprocs
    simp only [QUANTUM] at hprocs
    split at hprocs
    · next hzero =>
      rw [hprocs] at hp' ⊢
      have htail := idxOf_tail hp fun hhead => Sched.not_mem_tail hnodup hhead hp'
      omega
    · next hzero =>
      rw [hprocs]
      omega
  · rw [if_neg fun hc => hclock (Event.isClock_iff.mp hc)]
    simp only [Nat.add_zero]
    by_cases hcall : e.call = some 7
    · obtain ⟨a, hr⟩ := hk.toSound.running_of_call hcall hrun
      rw [h.wait hcall a (hk.running_eq.trans hr), List.idxOf_append_of_mem hp]
    · have hprocs := h.other hclock hcall
      rw [hprocs] at hp' ⊢
      have hle := idxOf_sublist List.filter_sublist hnodup hp'
      omega

-- A process behind i others in the queue of the pseudo clock is let go of within
-- 20 * (i + 1) interrupts of the clock, less those since the last that let one go.
theorem run_clock_wait (L : Layout) (p1 : State) (currentTime : Int) (k : Kernel) :
    ∃ k₁, main L p1 currentTime k = some k₁ ∧
      ∀ es, (∀ e ∈ es, Disciplined L.user e) → ∀ k₂, Kernel.run L es k₁ = some k₂ →
        ∀ es', (∀ e ∈ es', Disciplined L.user e) → ∀ k₃, Kernel.run L es' k₂ = some k₃ →
          ∀ p, (∀ bs k', bs <+: es' → Kernel.run L bs k₂ = some k' →
              p ∈ k'.abs.procs (some L.PSEUDO_CLOCK_SEMAPHORE)) →
            clocks es % 20 + clocks es' <
              20 * ((k₂.abs.procs (some L.PSEUDO_CLOCK_SEMAPHORE)).idxOf p + 1) := by
  obtain ⟨k₁, hmain, -, -⟩ := main_sound L p1 currentTime k
  have hres : ∀ s ∈ L.user, ¬ L.Reserved s := fun _ hs => hs
  refine ⟨k₁, hmain, fun es hes k₂ hrun es' hes' k₃ hrun' p hwait => ?_⟩
  have hpaced := (main_paced hmain).run hres hes hrun
  have hbeat := (main_paced hmain).run_onBeat hres hes (main_onBeat hmain) hrun
  rw [Nat.zero_add] at hbeat
  have hrank := Runs.run_ranked (I := fun k => k.Paced L ∧ ∃ n, k.OnBeat n)
    (P := fun _ e => Disciplined L.user e) (beatsLeft L p) Event.isClock
    (fun k e k' ⟨hk, n, hn⟩ hd hent =>
      ⟨hk.entry hres hd hent, _, hk.onBeat hres hd hn hent⟩)
    (fun k e k' ⟨hk, n, hn⟩ hd hp hp' hent =>
      (hk.ticks hres hd hn hent).beatsLeft hk hres hd hn hent hp hp')
    ⟨hpaced, _, hbeat⟩ (Runs.along_of_forall (fun e he _ => hes' e he) k₂) hwait hrun'
  have hbeat' := hpaced.run_onBeat hres hes' hbeat hrun'
  have hlt := Nat.mod_lt (clocks es + clocks es') (by decide : 0 < 20)
  unfold beatsLeft at hrank
  rw [hbeat.phase, hbeat'.phase] at hrank
  change _ + clocks es' ≤ _ at hrank
  omega

section Sample

open Sample

-- The second process waits behind the first, which is let go of and waits again.
theorem run_clock_wait_sample : ∃ k₁ k₂ k₃, main layout state 0 cold = some k₁ ∧
    Kernel.run layout (idlers ++ List.replicate 18 clock) k₁ = some k₂ ∧
    Kernel.run layout [clock, clock, sys 7 0 0 0 [], clock] k₂ = some k₃ ∧
    k₃.abs.procs (some layout.PSEUDO_CLOCK_SEMAPHORE) = [1, 0] ∧
    clocks (idlers ++ List.replicate 18 clock) % 20 +
        clocks [clock, clock, sys 7 0 0 0 [], clock] <
      20 * ((k₂.abs.procs (some layout.PSEUDO_CLOCK_SEMAPHORE)).idxOf 1 + 1) := by
  obtain ⟨k₁, hmain, hall⟩ := run_clock_wait layout state 0 cold
  have hmem : ∃ k ∈ main layout state 0 cold,
      ∃ k₂ ∈ Kernel.run layout (idlers ++ List.replicate 18 clock) k,
        ∃ k₃ ∈ Kernel.run layout [clock, clock, sys 7 0 0 0 [], clock] k₂,
          k₃.abs.procs (some layout.PSEUDO_CLOCK_SEMAPHORE) = [1, 0] ∧
          ∀ bs ∈ [clock, clock, sys 7 0 0 0 [], clock].inits, ∀ k' ∈ Kernel.run layout bs k₂,
            1 ∈ k'.abs.procs (some layout.PSEUDO_CLOCK_SEMAPHORE) := by
    decide +kernel
  obtain ⟨k, hk, k₂, hrun, k₃, hrun', hend, hwait⟩ := hmem
  cases hmain.symm.trans hk
  have hbound := hall _ (by decide) k₂ hrun _ (by decide) k₃ hrun' 1
    fun bs k' hbs hk' => hwait bs ((List.mem_inits _ _).mpr hbs) k' hk'
  exact ⟨k₁, k₂, k₃, hmain, hrun, hrun', hend, hbound⟩

end Sample

end Wait

end Kernel

end Hoca
