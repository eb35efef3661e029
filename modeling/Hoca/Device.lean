import Hoca.Conservation
import Hoca.Sched.Track

namespace Hoca

variable {L : Layout} {k k' k₁ : Kernel} {e : Event} {d : Device} {p : ProcId} {p1 : State}
  {currentTime : Int}

-- The running process starts an operation, or the kernel is entered.
inductive Action where
  | start (d : Device)
  | entry (e : Event)

-- The operations on the devices, and the returns from SYS8, the last one first.
structure Io where
  track : Device → Track
  log : List Return

namespace Io

def first : Io := ⟨fun _ => ⟨.idle, 0⟩, []⟩

def start (p : ProcId) (d : Device) (io : Io) : Io :=
  { io with track := Function.update io.track d ((io.track d).start p) }

-- The notes after an entry.
def note (k : Kernel) (e : Event) (k' : Kernel) (io : Io) : Io :=
  let track d := (io.track d).note e d k.running k'.abs.free
  { track := fun d => (track d).settle k'.cpu k'.running
    log := ((List.finRange TOTAL_DEVICES).filterMap fun d =>
      (track d).returns k'.cpu k'.running) ++ io.log }

def step (L : Layout) : Action → Kernel × Io → Option (Kernel × Io)
  | .start d, (k, io) =>
      match k.cpu, k.running with
      | .running _, some p => some (k, io.start p d)
      | _, _ => none
  | .entry e, (k, io) => (Kernel.entry L e k).map fun k' => (k', io.note k e k')

-- A device is used by one process at a time, which starts an operation and calls
-- SYS8, and interrupts once for it.
def Cycles : Kernel × Io → Action → Prop
  | r, .start d => (r.2.track d).phase = .idle
  | r, .entry e => ∀ d, (r.2.track d).Cycles e d r.1.running

-- Nobody calls SYS8 before the interrupt of its own operation on a device that has
-- interrupted for one whose SYS8 never came.
def Timely : Kernel × Io → Action → Prop
  | _, .start _ => True
  | r, .entry e => ∀ d, (r.2.track d).Timely e d

instance : ∀ r a, Decidable (Cycles r a)
  | _, .start _ => inferInstanceAs (Decidable (_ = _))
  | _, .entry _ => inferInstanceAs (Decidable (∀ _, _))

instance : ∀ r a, Decidable (Timely r a)
  | _, .start _ => isTrue trivial
  | _, .entry _ => inferInstanceAs (Decidable (∀ _, _))

-- The completions that are left on a device fit in the word of its semaphore.
def Fits : Kernel × Io → Action → Prop
  | _, .start _ => True
  | r, .entry _ => ∀ d, (r.2.track d).left + 1 < 2 ^ 31

-- The entries find room in the tables, and keep off the kernel's semaphores.
def Orderly (L : Layout) : Kernel × Io → Action → Prop
  | _, .start _ => True
  | r, .entry e => r.1.Orderly L e

instance : ∀ r a, Decidable (Fits r a)
  | _, .start _ => isTrue trivial
  | _, .entry _ => inferInstanceAs (Decidable (∀ _, _))

-- Nobody is killed before the interrupt of its operation, and an operation without
-- its SYS8 is the last one on its device.
def Spared (L : Layout) : Kernel × Io → Action → Prop
  | r, .start d => (r.2.track d).left = 0
  | r, .entry e => ∀ d p, (r.2.track d).phase = .started p ∨ (r.2.track d).phase = .waiting p →
      ∀ k', Kernel.entry L e r.1 = some k' → p ∉ k'.abs.free

instance : ∀ r a, Decidable (Spared L r a)
  | _, .start _ => inferInstanceAs (Decidable (_ = _))
  | r, .entry e =>
      decidable_of_iff (∀ d p, (r.2.track d).phase = .started p ∨ (r.2.track d).phase = .waiting p →
          (Kernel.entry L e r.1).all (fun k' => p ∉ k'.abs.free) = true)
        (by simp only [Spared, Option.all_eq_true, decide_eq_true_eq])

end Io

namespace Kernel

-- The kernel serves every operation as far as it is.
structure Served (L : Layout) (r : Kernel × Io) : Prop extends Sound L r.1 where
  serves : ∀ d, r.1.abs.Serves L d (r.2.track d)
  right : ∀ x ∈ r.2.log, x.Right

theorem main_served (hmain : main L p1 currentTime k = some k₁) : Served L (k₁, Io.first) := by
  obtain ⟨k₂, hmain₂, hsound, habs⟩ := main_sound L p1 currentTime k
  cases hmain.symm.trans hmain₂
  refine ⟨hsound, fun d => ⟨?_, nofun⟩, nofun⟩
  have hsem : k₁.abs.sem (L.device d) = 0 := by
    rw [habs, Sched.boot, Sched.schedule_sem]
    exact init_sem L k (Or.inr ⟨d, rfl⟩)
  have hq : k₁.abs.procs (some (L.device d)) = [] := by
    rw [Sched.procs, habs, boot_queue, List.map_nil]
  exact ⟨hsem, hq⟩

theorem Served.start {r : Kernel × Io} (h : Served L r) (hr : r.1.running = some p)
    (hidle : (r.2.track d).phase = .idle) : Served L (r.1, r.2.start p d) := by
  refine ⟨h.toSound, fun d' => ?_, h.right⟩
  show r.1.abs.Serves L d' (Function.update r.2.track d _ d')
  by_cases hd : d' = d
  · subst hd
    rw [Function.update_self]
    have howes := (h.serves d').owes
    simp only [Sched.Owes, hidle] at howes
    have hlive : p ∉ r.1.abs.free := by
      apply h.wf.live none
      exact Sched.running_mem (h.running_eq.symm.trans hr)
    refine ⟨⟨howes.1, howes.2, hlive⟩, fun _ _ hphase => ?_⟩
    cases hphase
  · rw [Function.update_of_ne hd]
    exact h.serves d'

theorem Served.entry {r : Kernel × Io} (h : Served L r) (hor : r.1.Orderly L e)
    (hcycle : ∀ d, (r.2.track d).Cycles e d r.1.running) (htimely : ∀ d, (r.2.track d).Timely e d)
    (hfit : ∀ d, (r.2.track d).left + 1 < 2 ^ 31) (hrun : Kernel.entry L e r.1 = some k') :
    Served L (k', r.2.note r.1 e k') := by
  obtain ⟨hsound, habs⟩ := h.entry_eq hor hrun
  have hexp := h.wf.expects (k := r.1) rfl (enabled_of_entry hrun)
  have hwf := hsound.wf
  have hcpu : k'.abs.cpu = k'.cpu := rfl
  have howes : ∀ d, k'.abs.Owes L d ((r.2.track d).note e d r.1.running k'.abs.free) := by
    intro d
    rw [habs, h.running_eq]
    apply (h.serves d).note h.wf (habs ▸ hwf) hor.apart hexp _ (htimely d) (hfit d)
    rw [← h.running_eq]
    exact hcycle d
  have hsettle := fun d => (howes d).settle hwf
  rw [hcpu, ← hsound.running_eq] at hsettle
  refine ⟨hsound, fun d => (hsettle d).1, fun x hx => ?_⟩
  rcases List.mem_append.mp hx with hx | hx
  · obtain ⟨d, -, hd⟩ := List.mem_filterMap.mp hx
    exact (hsettle d).2 x hd
  · exact h.right x hx

variable {r r' : Kernel × Io} {a : Action} {as bs : List Action}

theorem Served.step (h : Served L r) (hor : Io.Orderly L r a) (hcycle : Io.Cycles r a)
    (htimely : Io.Timely r a) (hfit : Io.Fits r a) (hs : Io.step L a r = some r') :
    Served L r' := by
  obtain ⟨k, io⟩ := r
  cases a with
  | start d =>
      rw [Io.step] at hs
      split at hs
      · next hr =>
        cases hs
        exact h.start hr hcycle
      · cases hs
  | entry e =>
      obtain ⟨k', hent, rfl⟩ := Option.map_eq_some_iff.mp hs
      exact h.entry hor hcycle htimely hfit hent

-- Disciplined entries are orderly.
theorem Paced.orderly_along {k : Kernel} {io : Io} (h : k.Paced L)
    (hd : ∀ e, Action.entry e ∈ as → Disciplined L.user e) :
    Runs.Along (Io.step L) (Io.Orderly L) as (k, io) := by
  have hres : ∀ s ∈ L.user, ¬ L.Reserved s := fun _ hs => hs
  refine Runs.along_of_invariant (I := fun r => r.1.Paced L)
    (P := fun _ a => ∀ e, a = .entry e → Disciplined L.user e) (fun r a r' hr hP hs => ?_)
    (fun r a hr hP => ?_) h (Runs.along_of_forall (fun a ha _ e he => hd e (by rwa [← he])) _)
  · obtain ⟨k, io⟩ := r
    cases a with
    | start d =>
        rw [Io.step] at hs
        split at hs
        · cases hs
          exact hr
        · cases hs
    | entry e =>
        obtain ⟨k', hent, rfl⟩ := Option.map_eq_some_iff.mp hs
        exact hr.entry hres (hP e rfl) hent
  · cases a with
    | start d => trivial
    | entry e => exact hr.orderly hres (hP e rfl)

theorem log_subset (hs : Io.step L a r = some r') : r.2.log ⊆ r'.2.log := by
  obtain ⟨k, io⟩ := r
  cases a with
  | start d =>
      rw [Io.step] at hs
      split at hs
      · cases hs
        exact fun _ hx => hx
      · cases hs
  | entry e =>
      obtain ⟨k', -, rfl⟩ := Option.map_eq_some_iff.mp hs
      exact fun _ hx => List.mem_append_right _ hx

theorem log_run (hrun : Runs.run (Io.step L) as r = some r') : r.2.log ⊆ r'.2.log := by
  induction as generalizing r with
  | nil =>
      cases hrun
      exact fun _ hx => hx
  | cons a as ih =>
      obtain ⟨r₁, hs, hrun⟩ := Option.bind_eq_some_iff.mp hrun
      exact fun _ hx => ih hrun (log_subset hs hx)

-- A SYS8 that comes before its interrupt, where a completion is left, returns with it.
theorem Served.not_right (h : Served L r) (hor : Io.Orderly L r a) (hcycle : Io.Cycles r a)
    (hnot : ¬ Io.Timely r a) (hs : Io.step L a r = some r') : ¬ ∀ x ∈ r'.2.log, x.Right := by
  obtain ⟨k, io⟩ := r
  cases a with
  | start d => exact absurd trivial hnot
  | entry e =>
      obtain ⟨k', hent, rfl⟩ := Option.map_eq_some_iff.mp hs
      simp only [Io.Timely, Track.Timely, not_forall] at hnot
      obtain ⟨d, hcall, hd4, hpending, hleft⟩ := hnot
      obtain ⟨p, hr⟩ := h.running_of_call hcall hent
      have hrk : k.running = some p := h.running_eq.trans hr
      have hcaller := ((hcycle d).call hcall hd4).trans hrk
      have hphase : (io.track d).phase = .started p := by
        rcases Phase.caller_cases hcaller with hphase | ⟨reg, hphase⟩
        · exact hphase
        · rw [hphase] at hpending
          exact False.elim hpending
      obtain ⟨hsound', habs⟩ := h.entry_eq hor hent
      obtain ⟨hlive, hrun, s, hcpu⟩ := (h.serves d).call_early hr hcall hd4 hphase hleft
      rw [← habs] at hlive hrun hcpu
      have hnote : (io.track d).note e d k.running k'.abs.free =
          { io.track d with phase := .waiting p } := by
        have hkind := (Sched.call_some hcall).1
        simp only [Track.note, Track.calls, Track.interrupts, Track.call, Track.kill, hrk, hcall, hd4,
          hkind, hphase, and_self, if_true, if_neg hlive]
      have hcpu' : k'.cpu = .running s := hcpu
      have hrun' : k'.running = some p := hsound'.running_eq.trans hrun
      have hmem : (⟨none, s.d2, s.d3⟩ : Return) ∈ (io.note k e k').log := by
        apply List.mem_append_left
        refine List.mem_filterMap.mpr ⟨d, List.mem_finRange d, ?_⟩
        simp only [hnote, hcpu', hrun', Track.returns, Track.result, if_true]
      intro hall
      cases hall _ hmem

-- Every SYS8 returns what the interrupt of its own operation has reported just when
-- nobody calls it early on a device with a completion left.
theorem run_own_completion_iff (L : Layout) (p1 : State) (currentTime : Int) (k : Kernel) :
    ∃ k₁, main L p1 currentTime k = some k₁ ∧
      ∀ as r, Runs.run (Io.step L) as (k₁, Io.first) = some r →
        Runs.Along (Io.step L) (Io.Orderly L) as (k₁, Io.first) →
          Runs.Along (Io.step L) Io.Cycles as (k₁, Io.first) →
            Runs.Along (Io.step L) Io.Fits as (k₁, Io.first) →
              ((∀ x ∈ r.2.log, x.Right) ↔
                Runs.Along (Io.step L) Io.Timely as (k₁, Io.first)) := by
  obtain ⟨k₁, hmain, -, -⟩ := main_sound L p1 currentTime k
  refine ⟨k₁, hmain, fun as r hrun hor hcycles hfits => ?_⟩
  have hiff := Runs.always_iff_along_of (J := Served L) (fun _ h => h.right)
    (fun _ _ _ h hH ht hs => h.step hH.1 hH.2.1 ht hH.2.2 hs)
    (fun _ _ _ h hH ht hs => h.not_right hH.1 hH.2.1 ht hs) (main_served hmain)
    (hor.and (hcycles.and hfits)) hrun
  rw [← hiff]
  constructor
  · rintro hall bs r₁ ⟨cs, rfl⟩ hbs x hx
    rw [Runs.run_append, hbs, Option.bind_some] at hrun
    exact hall x (log_run hrun hx)
  · exact fun hall => hall as r List.prefix_rfl hrun

section Sample

open Sample

-- The child of a child starts an operation, and both are killed.
def orphan : List Action :=
  [.entry fork, .entry clock, .entry fork, .entry clock, .entry clock, .start 0, .entry clock,
    .entry (sys 2 0 0 0 []), .entry (interrupted 0 ⟨5, 6⟩)]

def Action.event : Action → Option Event
  | .start _ => none
  | .entry e => some e

theorem entries_disciplined (h : ∀ e ∈ as.filterMap Action.event, Disciplined layout.user e) :
    ∀ e, Action.entry e ∈ as → Disciplined layout.user e :=
  fun e he => h e (List.mem_filterMap.mpr ⟨.entry e, he, rfl⟩)

def late : List Action := orphan ++ [.start 0, .entry (interrupted 0 ⟨7, 8⟩), .entry (waitio 0)]

theorem run_own_completion_sample : ∃ k₁ r, main layout state 0 cold = some k₁ ∧
    Runs.run (Io.step layout) late (k₁, Io.first) = some r ∧ r.2.log.length = 1 ∧
      ∀ x ∈ r.2.log, x.Right := by
  obtain ⟨k₁, hmain, hall⟩ := run_own_completion_iff layout state 0 cold
  have hend : ((main layout state 0 cold).bind fun k =>
      (Runs.run (Io.step layout) late (k, Io.first)).map fun r => (r.2.log.length,
        decide (Runs.Along (Io.step layout) Io.Cycles late (k, Io.first)),
        decide (Runs.Along (Io.step layout) Io.Fits late (k, Io.first)),
        decide (Runs.Along (Io.step layout) Io.Timely late (k, Io.first)))) =
      some (1, true, true, true) := by decide +kernel
  rw [hmain, Option.bind_some] at hend
  obtain ⟨r, hrun, heq⟩ := Option.map_eq_some_iff.mp hend
  simp only [Prod.mk.injEq, decide_eq_true_eq] at heq
  obtain ⟨hlog, hcycles, hfits, htimely⟩ := heq
  have hor : Runs.Along (Io.step layout) (Io.Orderly layout) late (k₁, Io.first) :=
    (main_paced hmain).orderly_along (entries_disciplined (by decide))
  exact ⟨k₁, r, hmain, hrun, hlog, (hall late r hrun hor hcycles hfits).mpr htimely⟩

def early : List Action := orphan ++ [.start 0, .entry (waitio 0)]

-- SYS8 comes back before the interrupt, with the completion of the dead process.
theorem completion_stale : ∃ k₁ r, main layout state 0 cold = some k₁ ∧
    Runs.Along (Io.step layout) (Io.Orderly layout) early (k₁, Io.first) ∧
      Runs.Along (Io.step layout) Io.Cycles early (k₁, Io.first) ∧
        Runs.run (Io.step layout) early (k₁, Io.first) = some r ∧ r.2.log = [⟨none, 5, 6⟩] := by
  obtain ⟨k₁, hmain, -, -⟩ := main_sound layout state 0 cold
  have hend : ((main layout state 0 cold).bind fun k =>
      (Runs.run (Io.step layout) early (k, Io.first)).map fun r => (r.2.log,
        decide (Runs.Along (Io.step layout) Io.Cycles early (k, Io.first)))) =
      some ([⟨none, 5, 6⟩], true) := by decide +kernel
  rw [hmain, Option.bind_some] at hend
  obtain ⟨r, hrun, heq⟩ := Option.map_eq_some_iff.mp hend
  simp only [Prod.mk.injEq, decide_eq_true_eq] at heq
  exact ⟨k₁, r, hmain, (main_paced hmain).orderly_along (entries_disciplined (by decide)), heq.2,
    hrun, heq.1⟩

end Sample

section Rendezvous

-- Where a completion is, and what the semaphore of its device says.
structure Met (L : Layout) (r : Kernel × Io) : Prop where
  right : ∀ x ∈ r.2.log, x.Right
  word : ∀ d, r.1.sem (L.device d) = -1 ∨ r.1.sem (L.device d) = 0 ∨ r.1.sem (L.device d) = 1
  left : ∀ d, (r.2.track d).phase ≠ .idle → (r.2.track d).left = 0
  rest : ∀ d, r.2.track d = ⟨.idle, 0⟩ → r.1.sem (L.device d) = 0
  waiting : ∀ d p, (r.2.track d).phase = .waiting p →
    r.1.sem (L.device d) = -1 ∧ r.1.abs.procs (some (L.device d)) = [p]
  saved : ∀ d p reg, (r.2.track d).phase = .saved p reg →
    r.1.sem (L.device d) = 1 ∧ r.1.deviceCompletionStats d = ⟨reg.d_stat, reg.d_dadd⟩
  handed : ∀ d p reg, (r.2.track d).phase = .handed p reg →
    r.1.sem (L.device d) = 0 ∧ p ∈ r.1.abs.procs none ∧ r.1.running ≠ some p ∧
      (r.1.procTable p).p_s.d2 = reg.d_dadd ∧ (r.1.procTable p).p_s.d3 = reg.d_stat

-- The kernel serves every operation, and nothing is left for another one.
structure Cleared (L : Layout) (r : Kernel × Io) : Prop extends Served L r where
  fresh : ∀ d, (r.2.track d).Fresh

theorem Cleared.timely (h : Cleared L r) : Io.Timely r a := by
  cases a with
  | start d => trivial
  | entry e =>
      intro d _ _ hpending
      apply (h.fresh d).left
      intro hidle
      rw [hidle] at hpending
      exact hpending

theorem Cleared.fits (h : Cleared L r) : Io.Fits r a := by
  cases a with
  | start d => trivial
  | entry e =>
      intro d
      have hlast := (h.fresh d).last
      omega

theorem Cleared.step (h : Cleared L r) (hor : Io.Orderly L r a) (hcycle : Io.Cycles r a)
    (hspared : Io.Spared L r a) (hs : Io.step L a r = some r') : Cleared L r' := by
  refine ⟨h.toServed.step hor hcycle h.timely h.fits hs, fun d => ?_⟩
  have hfresh := h.fresh d
  obtain ⟨k, io⟩ := r
  cases a with
  | start d' =>
      rw [Io.step] at hs
      split at hs
      · next p _ hr =>
        cases hs
        show Track.Fresh (Function.update io.track d' _ d)
        by_cases hdd : d = d'
        · subst hdd
          rw [Function.update_self]
          exact hfresh.start hspared p
        · rw [Function.update_of_ne hdd]
          exact hfresh
      · cases hs
  | entry e =>
      obtain ⟨k', hent, rfl⟩ := Option.map_eq_some_iff.mp hs
      apply Track.Fresh.settle
      exact hfresh.note fun p hp => hspared d p hp k' hent

theorem Cleared.met (h : Cleared L r) : Met L r where
  right := h.right
  word d := by
    have howes := (h.serves d).owes
    have hleft := (h.fresh d).left
    have hlast := (h.fresh d).last
    have hsem : r.1.abs.sem (L.device d) = r.1.sem (L.device d) := rfl
    simp only [Sched.Owes, hsem] at howes
    split at howes
    · omega
    · omega
    · omega
    · omega
    · next p reg hphase =>
      have hzero := hleft (by simp [hphase])
      omega
    · omega
  left d := (h.fresh d).left
  rest d hidle := by
    have howes := (h.serves d).owes
    rw [hidle] at howes
    exact howes.1
  waiting d p hphase := by
    have howes := (h.serves d).owes
    simp only [Sched.Owes, hphase] at howes
    exact ⟨howes.1, howes.2.1⟩
  saved d p reg hphase := by
    have howes := (h.serves d).owes
    have hzero := (h.fresh d).left (by simp [hphase])
    simp only [Sched.Owes, hphase, hzero] at howes
    exact ⟨howes.1, howes.2.2.2⟩
  handed d p reg hphase := by
    have howes := (h.serves d).owes
    have hr := (h.serves d).off p reg hphase
    have hzero := (h.fresh d).left (by simp [hphase])
    simp only [Sched.Owes, hphase, hzero, Sched.Carries, if_neg hr] at howes
    obtain ⟨hsem, -, hready, s, rfl, hd2, hd3⟩ := howes
    exact ⟨hsem, hready, h.running_eq ▸ hr, hd2, hd3⟩

-- In whatever order the interrupts and the SYS8 calls come, every SYS8 returns what
-- the interrupt of its own operation has reported, and no completion gets lost.
theorem run_rendezvous (L : Layout) (p1 : State) (currentTime : Int) (k : Kernel) :
    ∃ k₁, main L p1 currentTime k = some k₁ ∧
      ∀ as r, Runs.run (Io.step L) as (k₁, Io.first) = some r →
        Runs.Along (Io.step L) (Io.Orderly L) as (k₁, Io.first) →
          Runs.Along (Io.step L) Io.Cycles as (k₁, Io.first) →
            Runs.Along (Io.step L) (Io.Spared L) as (k₁, Io.first) → Met L r := by
  obtain ⟨k₁, hmain, -, -⟩ := main_sound L p1 currentTime k
  refine ⟨k₁, hmain, fun as r hrun hor hcycles hspared => Cleared.met ?_⟩
  have hfirst : Cleared L (k₁, Io.first) :=
    ⟨main_served hmain, fun d => ⟨nofun, fun hne => absurd rfl hne, Nat.zero_le 1⟩⟩
  exact Runs.run_invariant (I := Cleared L)
    (fun _ _ _ h hP hs => h.step hP.1 hP.2.1 hP.2.2 hs) hfirst (hor.and (hcycles.and hspared)) hrun

open Sample

-- One SYS8 comes before its interrupt, and one after it.
def bothOrders : List Action :=
  [.entry fork, .start 0, .entry (waitio 0), .start 1, .entry (interrupted 1 ⟨7, 8⟩),
    .entry (waitio 1), .entry (interrupted 0 ⟨5, 6⟩), .entry clock]

theorem run_rendezvous_sample : ∃ k₁ r, main layout state 0 cold = some k₁ ∧
    Runs.run (Io.step layout) bothOrders (k₁, Io.first) = some r ∧
      r.2.log = [⟨some ⟨5, 6⟩, 5, 6⟩, ⟨some ⟨7, 8⟩, 7, 8⟩] ∧ Met layout r := by
  obtain ⟨k₁, hmain, hall⟩ := run_rendezvous layout state 0 cold
  have hend : ((main layout state 0 cold).bind fun k =>
      (Runs.run (Io.step layout) bothOrders (k, Io.first)).map fun r => (r.2.log,
        decide (Runs.Along (Io.step layout) Io.Cycles bothOrders (k, Io.first)),
        decide (Runs.Along (Io.step layout) (Io.Spared layout) bothOrders (k, Io.first)))) =
      some ([⟨some ⟨5, 6⟩, 5, 6⟩, ⟨some ⟨7, 8⟩, 7, 8⟩], true, true) := by decide +kernel
  rw [hmain, Option.bind_some] at hend
  obtain ⟨r, hrun, heq⟩ := Option.map_eq_some_iff.mp hend
  simp only [Prod.mk.injEq, decide_eq_true_eq] at heq
  obtain ⟨hlog, hcycles, hspared⟩ := heq
  have hor : Runs.Along (Io.step layout) (Io.Orderly layout) bothOrders (k₁, Io.first) :=
    (main_paced hmain).orderly_along (entries_disciplined (by decide))
  exact ⟨k₁, r, hmain, hrun, hlog, hall bothOrders r hrun hor hcycles hspared⟩

-- Three processes use up the descriptors, and the fourth starts an operation.
def starved : List Action :=
  [.entry fork, .entry fork, .entry fork, .entry (locked [1, 2, 3, 4, 5, 6, 7, 8, 9]),
    .entry (locked [11, 12, 13, 14, 15, 16, 17, 18, 19]), .entry (locked [21, 22]), .start 0,
    .entry (waitio 0)]

-- SYS8 finds no descriptor. Its caller is on no queue, and the interrupt of the
-- operation finds nobody.
theorem rendezvous_missed : ∃ k₁ r, main layout state 0 cold = some k₁ ∧
    Runs.run (Io.step layout) starved (k₁, Io.first) = some r ∧
      Runs.Along (Io.step layout) (fun r a => Io.Cycles r a ∧ Io.Spared layout r a) starved
        (k₁, Io.first) ∧
      (r.2.track 0).phase = .waiting 3 ∧ 3 ∉ r.1.abs.procs none ∧
        r.1.sem (layout.device 0) = -1 ∧ r.1.abs.procs (some (layout.device 0)) = [] ∧
          entry layout (interrupted 0 ⟨5, 6⟩) r.1 = none ∧ ¬ Met layout r := by
  obtain ⟨k₁, hmain, -, -⟩ := main_sound layout state 0 cold
  have hend : ((main layout state 0 cold).bind fun k =>
      (Runs.run (Io.step layout) starved (k, Io.first)).map fun r => ((r.2.track 0).phase,
        r.1.abs.procs none, r.1.sem (layout.device 0), r.1.abs.procs (some (layout.device 0)),
        (entry layout (interrupted 0 ⟨5, 6⟩) r.1).isNone,
        decide (Runs.Along (Io.step layout) (fun r a => Io.Cycles r a ∧ Io.Spared layout r a)
          starved (k, Io.first)))) =
      some (.waiting 3, [], -1, [], true, true) := by decide +kernel
  rw [hmain, Option.bind_some] at hend
  obtain ⟨r, hrun, heq⟩ := Option.map_eq_some_iff.mp hend
  simp only [Prod.mk.injEq, decide_eq_true_eq, Option.isNone_iff_eq_none] at heq
  obtain ⟨hphase, hready, hsem, hq, hnone, halong⟩ := heq
  refine ⟨k₁, r, hmain, hrun, halong, hphase, by simp [hready], hsem, hq, hnone, ?_⟩
  intro hmet
  have hone := (hmet.waiting 0 3 hphase).2
  rw [hq] at hone
  cases hone

end Rendezvous

end Kernel

end Hoca
