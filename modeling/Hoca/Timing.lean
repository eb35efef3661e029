import Hoca.Conservation
import Hoca.Sched.Timing

namespace Hoca

variable {L : Layout} {k k₁ k₂ k₃ : Kernel} {e : Event} {es : List Event} {m : Meter} {p : ProcId}
  {p1 : State} {currentTime : Int}

namespace Sample

-- The event with the two readings of the clock around it.
def timed (e : Event) (tIn tOut : Int) : Event := { e with tIn := tIn, tOut := tOut }

def handler : Event := sys 5 0 100 200 []

def cputime : Event := sys 6 0 0 0 []

end Sample

namespace Kernel

-- Adds up an entry, from what the kernel holds when it is entered.
def meter (k : Kernel) (e : Event) (_ : Kernel) (m : Meter) : Meter :=
  e.metered k.running k.procFree_h m

-- The first process gets the processor when main calls schedule.
def unmetered (currentTime : Int) : Meter := ⟨fun _ => 0, fun _ => 0, currentTime⟩

theorem Sound.meter_eq (h : k.Sound L) (k' : Kernel) :
    k.meter e k' m = e.metered k.abs.running k.abs.free.head? m := by
  rw [meter, h.running_eq, h.rep.free.chain.1]

theorem main_metered (hmain : main L p1 currentTime k = some k₁) :
    k₁.abs.Metered (unmetered currentTime) := by
  obtain ⟨k', hmain', -, habs⟩ := main_sound L p1 currentTime k
  rw [hmain] at hmain'
  cases hmain'
  have htotals : ∀ p, (((k.load L).init L).procTable p).total_processor_time = 0 := fun _ => rfl
  have hfirst : ((Sched.initial ((k.load L).init L).toEnv fun p =>
      (((k.load L).init L).procTable p).toContext).first p1).totals = fun _ => 0 := by
    funext p
    by_cases hp : p = 0
    · subst hp
      simp [Sched.totals, Sched.first, Sched.initial, Sched.insertReady, Sched.saveState,
        Sched.setContext, htotals]
    · simp [Sched.totals, Sched.first, Sched.initial, Sched.insertReady, Sched.saveState,
        Sched.setContext, hp, htotals]
  rw [habs, Sched.boot]
  refine Sched.Totalled.schedule ⟨fun p _ => ?_, fun p _ => ?_⟩ currentTime
  · rw [hfirst]
    rfl
  · rw [hfirst]

-- A kernel that can be entered has its first ready process on the processor.
theorem Sound.on (h : k.Sound L) (hen : k.Enabled e = true) (hq : k.abs.queue none ≠ []) :
    ∃ s, k.abs.cpu = .running s := by
  have hasleep := h.wf.asleep
  unfold Kernel.Enabled at hen
  cases hc : k.cpu with
  | running s => exact ⟨s, hc⟩
  | asleep => exact absurd (hasleep hc) hq
  | halted msg => simp [hc] at hen

theorem Sound.metered (h : k.Sound L) (hm : k.abs.Metered m) (hor : k.Orderly L e)
    (hrun : Kernel.entry L e k = some k₁) : k₁.abs.Metered (k.meter e k₁ m) := by
  have hen := enabled_of_entry hrun
  have hexp := h.wf.expects (k := k) rfl hen
  rw [(h.entry_eq hor hrun).2, h.meter_eq]
  refine hm.step h.wf hexp (h.on hen) fun hcall => ?_
  obtain ⟨p, hr⟩ := hexp.running (Or.inl (Sched.call_some hcall).1)
  exact (hor.admits.device p hr hcall).imp fun _ hd => hd.1

-- What holds of a run with its account.
structure Timed (L : Layout) (r : Kernel × Meter) : Prop where
  sound : r.1.Sound L
  metered : r.1.abs.Metered r.2

theorem Timed.entry {r r' : Kernel × Meter} (h : Timed L r) (hor : r.1.Orderly L e)
    (hrun : Runs.watched (Kernel.entry L) meter e r = some r') : Timed L r' := by
  obtain ⟨k', hent, rfl⟩ := Option.map_eq_some_iff.mp hrun
  exact ⟨(h.sound.entry_eq hor hent).1, h.sound.metered h.metered hor hent⟩

-- SYS6 needs no room in any table.
theorem orderly_getcputime (hcall : e.call = some 6) : k.Orderly L e := by
  have hne : ∀ n, n ≠ 6 → e.call ≠ some n := by
    rintro n hn hc
    rw [hcall] at hc
    exact hn (Option.some.inj hc).symm
  refine orderly_of_ne (fun c hends => ?_) (hne 3 (by decide)) (hne 7 (by decide)) (hne 8 (by decide))
  have htrap := Event.trap_of_call hcall (by decide) (by decide)
  rcases hends with hc | ⟨hc, -⟩ | ⟨T, hT, -⟩
  · exact absurd hc (hne 2 (by decide))
  · exact absurd hc (hne 5 (by decide))
  · rw [htrap] at hT
    cases hT

-- SYS6 returns the sum of the intervals exactly when a long holds it and those that
-- ended in a program or memory management trap that was passed up add up to nothing.
theorem run_cputime (hmain : main L p1 currentTime k = some k₁)
    (hes : Runs.Along (Kernel.entry L) (Orderly L) es k₁)
    (hrun : Runs.run (Runs.watched (Kernel.entry L) meter) es (k₁, unmetered currentTime) =
      some (k₂, m))
    (hcall : e.call = some 6) (hr : k₂.running = some p)
    (hent : Kernel.entry L e k₂ = some k₃) :
    ∃ s, k₃.cpu = .running s ∧
      (s.d2 = (k₂.meter e k₃ m).spent p ↔
        InRange ((k₂.meter e k₃ m).spent p) ∧ (2 ^ 32 : Int) ∣ (k₂.meter e k₃ m).lost p) := by
  obtain ⟨k', hmain', hsound, -⟩ := main_sound L p1 currentTime k
  rw [hmain] at hmain'
  cases hmain'
  have hlast : Timed L (k₂, m) :=
    Runs.run_invariant (P := fun r e => r.1.Orderly L e) (fun _ _ _ ht ho hs => ht.entry ho hs)
      ⟨hsound, main_metered hmain⟩ hes.watched hrun
  have h := hlast.sound
  have hr' : k₂.abs.running = some p := h.running_eq.symm.trans hr
  obtain ⟨s, hs⟩ := h.on (enabled_of_entry hent) (Sched.ready_of_running hr')
  obtain ⟨t, ht, hd2⟩ := Sched.step_getcputime (L := L) hlast.metered (h.wf.live none) hr' hs hcall
  refine ⟨t, ?_, ?_⟩
  · have habs := congrArg (fun v => v.cpu) (h.entry_eq (orderly_getcputime hcall) hent).2
    exact habs.trans ht
  · have hk := (Sched.call_some hcall).1
    have hone : e.call ≠ some 1 := by simp [hcall]
    have hu : e.unclocked = false := by simp only [Event.unclocked, hk]
    rw [meter, hr, Event.metered_some (by simp [hk]), hu, hd2, Event.born_of_call hone,
      Event.born_of_call hone]
    simp only [Bool.false_eq_true, if_false, Function.update_self, Meter.counted]
    rw [sub_add_eq_add_sub]
    exact toLong_sub_eq_iff

section Sample

open Sample

-- The first process is preempted, has a trap passed up in the instant that it goes on,
-- and waits; its child lets it go.
def shift : List Event :=
  [timed handler 5 6, timed fork 8 9, timed clock 14 15, timed (sys3 [⟨UNLOCK, 9⟩]) 20 22,
    timed clock 25 27, timed fault 27 27, timed (locked [7]) 30 31,
    timed (sys3 [⟨UNLOCK, 7⟩]) 33 34, timed clock 36 38]

theorem run_cputime_sample : ∃ k₁ k₂ k₃ m s, main layout state 0 cold = some k₁ ∧
    Runs.run (Runs.watched (Kernel.entry layout) meter) shift (k₁, unmetered 0) = some (k₂, m) ∧
    Kernel.entry layout (timed cputime 40 41) k₂ = some k₃ ∧ k₃.cpu = .running s ∧ s.d2 = 17 := by
  obtain ⟨k₁, hmain, -, -⟩ := main_sound layout state 0 cold
  have hval : ((main layout state 0 cold).bind fun k =>
      (Runs.run (Runs.watched (Kernel.entry layout) meter) shift (k, unmetered 0)).bind fun r =>
        (Kernel.entry layout (timed cputime 40 41) r.1).map fun k' => (r.1.running,
          (r.1.meter (timed cputime 40 41) k' r.2).spent 0,
          (r.1.meter (timed cputime 40 41) k' r.2).lost 0)) = some (some 0, 17, 0) := by
    decide +kernel
  rw [hmain, Option.bind_some] at hval
  obtain ⟨⟨k₂, m⟩, hrun, hval⟩ := Option.bind_eq_some_iff.mp hval
  obtain ⟨k₃, hent, heq⟩ := Option.map_eq_some_iff.mp hval
  simp only [Prod.mk.injEq] at heq
  obtain ⟨hr, hspent, hlost⟩ := heq
  have hd : ∀ e ∈ shift, Disciplined layout.user e := by decide
  have hes := (main_tended hmain).orderly_along (U := layout.user) (fun s hs => hs) hd
  obtain ⟨s, hs, hd2⟩ := run_cputime hmain hes hrun (e := timed cputime 40 41) (by decide) hr hent
  rw [hspent, hlost] at hd2
  exact ⟨k₁, k₂, k₃, m, s, hmain, hrun, hent, hs, hd2.mpr (by decide)⟩

-- The ten units of time before the trap are not counted.
theorem cputime_lost : ∃ k₁ k₂ k₃ m s, main layout state 0 cold = some k₁ ∧
    Runs.run (Runs.watched (Kernel.entry layout) meter) [handler, timed fault 10 10]
      (k₁, unmetered 0) = some (k₂, m) ∧
    Kernel.entry layout (timed cputime 12 12) k₂ = some k₃ ∧ k₂.running = some 0 ∧
    k₃.cpu = .running s ∧ s.d2 = 2 ∧ (k₂.meter (timed cputime 12 12) k₃ m).spent 0 = 12 := by
  obtain ⟨k₁, hmain, -, -⟩ := main_sound layout state 0 cold
  have hval : ((main layout state 0 cold).bind fun k =>
      (Runs.run (Runs.watched (Kernel.entry layout) meter) [handler, timed fault 10 10]
        (k, unmetered 0)).bind fun r =>
          (Kernel.entry layout (timed cputime 12 12) r.1).map fun k' =>
            (r.1.running, k'.cpu, (r.1.meter (timed cputime 12 12) k' r.2).spent 0)) =
      some (some 0, .running ((timed cputime 12 12).old.setD2 2), 12) := by decide +kernel
  rw [hmain, Option.bind_some] at hval
  obtain ⟨⟨k₂, m⟩, hrun, hval⟩ := Option.bind_eq_some_iff.mp hval
  obtain ⟨k₃, hent, heq⟩ := Option.map_eq_some_iff.mp hval
  simp only [Prod.mk.injEq] at heq
  exact ⟨k₁, k₂, k₃, m, _, hmain, hrun, hent, heq.1, heq.2.1, by decide, heq.2.2⟩

end Sample

end Kernel

end Hoca
