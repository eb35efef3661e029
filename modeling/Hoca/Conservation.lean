import Hoca.Limits
import Hoca.Sched.Discipline

namespace Hoca

variable {L : Layout} {U W : Set Addr} {k k' : Kernel} {e : Event} {p1 : State} {currentTime : Int}

-- A machine whose memory is all zero, and what happens on it.
namespace Sample

def layout : Layout := ⟨1000, 900, Or.inl (by decide)⟩

def state : State := ⟨fun _ => 0, ⟨false, true, false, 0, false, false, false, false, false⟩, 0, 0⟩

def cold : Kernel where
  sem _ := 0
  deviceCompletionStats _ := ⟨0, 0⟩
  PSEUDO_CLOCK := 0
  intervalTimer := none
  SYS_TRAP_OLD_STATE := state
  areas _ := state
  cpu := .asleep
  procTable _ :=
    { p_link := fun _ => .null, qcount := 0, semvec := fun _ => none,
      parent_proc := none, sibling_proc := none, children_proc := none,
      p_s := state, last_start_time := 0, total_processor_time := 0,
      trap_old_state := fun _ => none, trap_new_state := fun _ => none }
  procFree_h := none
  semdTable _ := ⟨none, none, none, .null⟩
  semdFree_h := none
  semd_h := none
  readyQueue := .null

def event (kind : Kind) (old : State) (ops : List Vpop) : Event where
  kind := kind
  old := old
  areas _ := state
  vpops _ i := ops.getD i ⟨0, 0⟩
  tIn := 0
  tOut := 0

-- A system call with its registers.
def sys (n : ℕ) (d2 d3 d4 : Int) (ops : List Vpop) : Event :=
  event .sys { state with
    s_r := fun i => if i = 2 then d2 else if i = 3 then d3 else if i = 4 then d4 else 0
    s_tmp := BitVec.ofNat 16 n } ops

def fork : Event := sys 1 0 0 0 []

def sys3 (ops : List Vpop) : Event := sys 3 0 ops.length 0 ops

def clock : Event := event .clock state []

def fault : Event := event .prog (state.setD2 3) []

def waitio (d : Device) : Event := sys 8 0 0 d []

def interrupted (d : Device) (reg : DevReg) : Event :=
  event (.device .TERMINAL reg) { state with s_tmp := BitVec.ofNat 16 d } []

def locked (l : List Int) : Event := sys3 (l.map fun s => ⟨LOCK, s⟩)

end Sample
namespace Kernel

-- Nobody has a place on two queues.
structure Paced (L : Layout) (k : Kernel) : Prop extends Sound L k where
  single : k.abs.Single L none

-- What holds between the entries of a disciplined run.
structure Tended (L : Layout) (k : Kernel) : Prop extends Paced L k where
  placed : k.abs.Placed none

-- No operation of the entry takes the word of a semaphore of `U` out of the range
-- of an int.
def WordsFit (U : Set Addr) (k : Kernel) (e : Event) : Prop :=
  e.call = some 3 → Ranged U k.sem e.vector

-- The semaphores of the devices have room for everybody who waits and an interrupt.
def DevicesFit (L : Layout) (k : Kernel) (_ : Event) : Prop := k.abs.DevicesFit L

instance [DecidablePred (· ∈ U)] (k : Kernel) (e : Event) : Decidable (WordsFit U k e) :=
  inferInstanceAs (Decidable (_ → _))

instance (k : Kernel) (e : Event) : Decidable (DevicesFit L k e) :=
  inferInstanceAs (Decidable (k.abs.DevicesFit L))

section Boot

theorem init_sem_of_ne (L : Layout) (k : Kernel) {s : Addr} (hs : ¬ L.Reserved s) :
    ((k.load L).init L).sem s = k.sem s := by
  have hd : ¬ ∃ d, s = L.device d := fun hc => hs (Or.inr hc)
  have hp : s ≠ L.PSEUDO_CLOCK_SEMAPHORE := fun hc => hs (Or.inl hc)
  simp [init, intinit, hd, initProc, initSemd, load, setSem, hp]

theorem boot_queue (L : Layout) (p1 : State) (currentTime : Int) (k : Kernel) (s : Addr) :
    (Sched.boot L p1 currentTime k).queue (some s) = [] := by
  rw [Sched.boot, Sched.schedule_queue]
  simp only [Sched.first, Sched.insertReady]
  rw [enqueue_of_ne (by simp)]
  rfl

theorem boot_procs (L : Layout) (p1 : State) (currentTime : Int) (k : Kernel) :
    (Sched.boot L p1 currentTime k).procs none = [0] := by
  rw [Sched.procs, Sched.boot, Sched.schedule_queue]
  exact Sched.procs_insertReady _ 0 none

theorem boot_sem (L : Layout) (p1 : State) (currentTime : Int) (k : Kernel) {s : Addr}
    (hs : ¬ L.Reserved s) : (Sched.boot L p1 currentTime k).sem s = k.sem s := by
  rw [Sched.boot, Sched.schedule_sem]
  exact init_sem_of_ne L k hs

theorem main_paced (hmain : main L p1 currentTime k = some k') : k'.Paced L := by
  obtain ⟨k₁, hmain₁, hsound, habs⟩ := main_sound L p1 currentTime k
  rw [hmain] at hmain₁
  cases hmain₁
  have hqueue := boot_queue L p1 currentTime k
  have hprocs : ∀ s, k'.abs.procs (some s) = [] := by
    intro s
    rw [Sched.procs, habs, hqueue s, List.map_nil]
  refine ⟨hsound, fun s _ e he => ?_, fun p _ x y hx hy => ?_⟩
  · rw [habs, hqueue s] at he
    cases he
  · cases x with
    | none =>
        cases y with
        | none => rfl
        | some s =>
            rw [hprocs s] at hy
            cases hy
    | some s =>
        rw [hprocs s] at hx
        cases hx

theorem main_tended (hmain : main L p1 currentTime k = some k') : k'.Tended L := by
  have hpaced := main_paced hmain
  obtain ⟨k₁, hmain₁, -, habs⟩ := main_sound L p1 currentTime k
  rw [hmain] at hmain₁
  cases hmain₁
  refine ⟨hpaced, fun p hp _ => ⟨none, ?_⟩⟩
  rw [habs, boot_procs]
  rw [habs, Sched.boot, Sched.schedule_free] at hp
  have hzero : ∀ p : ProcId, p ∉ (List.finRange MAXPROC).tail → p ∈ [(0 : ProcId)] := by decide
  exact hzero p hp

theorem main_balanced (hU : ∀ s ∈ U, ¬ L.Reserved s ∧ 0 ≤ k.sem s)
    (hmain : main L p1 currentTime k = some k') : ∀ s ∈ U, k'.abs.Balanced s := by
  intro s hs
  obtain ⟨k₁, hmain₁, -, habs⟩ := main_sound L p1 currentTime k
  rw [hmain] at hmain₁
  cases hmain₁
  have hpos := (hU s hs).2
  rw [Sched.Balanced, habs, boot_queue L p1 currentTime k s,
    boot_sem L p1 currentTime k (hU s hs).1]
  simp [hpos]

theorem main_manned (hmain : main L p1 currentTime k = some k') : k'.abs.Manned L := by
  intro d
  obtain ⟨k₁, hmain₁, -, habs⟩ := main_sound L p1 currentTime k
  rw [hmain] at hmain₁
  cases hmain₁
  have hzero : ((k.load L).init L).sem (L.device d) = 0 := init_sem L k (Or.inr ⟨d, rfl⟩)
  rw [Sched.level, habs, boot_queue L p1 currentTime k (L.device d), Sched.boot,
    Sched.schedule_sem]
  change 0 ≤ ((k.load L).init L).sem (L.device d) + _
  simp [hzero]

end Boot

theorem Paced.orderly (h : k.Paced L) (hU : ∀ s ∈ U, ¬ L.Reserved s) (hd : Disciplined U e) :
    k.Orderly L e :=
  ⟨h.single.admits h.wf hU hd, hd.apart hU⟩

theorem Sound.moves (h : k.Sound L) (hd : Disciplined U e) :
    Sched.Moves L True (fun _ _ ops => Tame U ops) k.abs (k.abs.step L e) :=
  Sched.moves_step h.wf.pclock (fun _ => trivial) fun _ _ hc => hd.vector hc

theorem Paced.entry (h : k.Paced L) (hU : ∀ s ∈ U, ¬ L.Reserved s) (hd : Disciplined U e)
    (hrun : Kernel.entry L e k = some k') : k'.Paced L := by
  obtain ⟨hsound, habs⟩ := h.entry_eq (h.orderly hU hd) hrun
  refine ⟨hsound, ?_⟩
  rw [habs]
  exact (h.toSound.moves hd).invariant (fun _ _ ops ht => ht.separate hU)
    (fun v v' hv hi => hi.move hv fun _ _ _ ht => ⟨ht.separate hU, ht.single⟩) h.wf.toStable h.single

theorem Paced.run {es : List Event} (h : k.Paced L) (hU : ∀ s ∈ U, ¬ L.Reserved s)
    (hd : ∀ e ∈ es, Disciplined U e) (hrun : Kernel.run L es k = some k') : k'.Paced L :=
  Runs.run_invariant (P := fun _ e => Disciplined U e)
    (fun _ _ _ ht hd hr => ht.entry hU hd hr) h (Runs.along_of_forall (fun e he _ => hd e he) k) hrun

theorem Tended.orderly (h : k.Tended L) (hU : ∀ s ∈ U, ¬ L.Reserved s) (hd : Disciplined U e) :
    k.Orderly L e :=
  h.toPaced.orderly hU hd

theorem Tended.entry (h : k.Tended L) (hU : ∀ s ∈ U, ¬ L.Reserved s) (hd : Disciplined U e)
    (hrun : Kernel.entry L e k = some k') : k'.Tended L := by
  obtain ⟨hsound, habs⟩ := h.entry_eq (h.orderly hU hd) hrun
  refine ⟨h.toPaced.entry hU hd hrun, ?_⟩
  rw [habs]
  exact (h.toSound.moves hd).invariant (fun _ _ _ ht => ht.separate hU)
    (fun v v' hv hi => hi.move (hv.except (R := ∅)) fun v p _ ht =>
      Sched.keeps_of_nodup ht.distinct v p) h.wf.toStable h.placed

theorem Tended.run {es : List Event} (h : k.Tended L) (hU : ∀ s ∈ U, ¬ L.Reserved s)
    (hd : ∀ e ∈ es, Disciplined U e) (hrun : Kernel.run L es k = some k') : k'.Tended L :=
  Runs.run_invariant (P := fun _ e => Disciplined U e)
    (fun _ _ _ ht hd hr => ht.entry hU hd hr) h (Runs.along_of_forall (fun e he _ => hd e he) k) hrun

theorem Tended.orderly_along {es : List Event} (h : k.Tended L) (hU : ∀ s ∈ U, ¬ L.Reserved s)
    (hd : ∀ e ∈ es, Disciplined U e) : Runs.Along (Kernel.entry L) (Orderly L) es k :=
  Runs.along_of_invariant (P := fun _ e => Disciplined U e) (fun _ _ _ ht hd hr => ht.entry hU hd hr)
    (fun _ _ ht hd => ht.orderly hU hd) h (Runs.along_of_forall (fun e he _ => hd e he) k)

section Words

variable {es : List Event}

-- The words that stay within the range count the waiters.
theorem Tended.balanced_entry {s : Addr} (h : k.Tended L) (hU : ∀ s ∈ U, ¬ L.Reserved s)
    (hd : Disciplined U e) (hfit : k.WordsFit W e) (hs : s ∈ W) (hres : ¬ L.Reserved s)
    (hb : k.abs.Balanced s) (hrun : Kernel.entry L e k = some k') : k'.abs.Balanced s := by
  have hm : Sched.Moves L True (fun v _ ops => Tame U ops ∧ Ranged W v.sem ops) k.abs
      (k.abs.step L e) :=
    Sched.moves_step h.wf.pclock (fun _ => trivial) fun _ _ hc => ⟨hd.vector hc, hfit hc⟩
  rw [(h.entry_eq (h.orderly hU hd) hrun).2]
  exact hm.invariant (I := fun v => v.Balanced s) (fun _ _ _ ht => ht.1.separate hU)
    (fun v v' hv hi => hi.move (hv.distinct (some s)) hres hs fun _ _ _ ht =>
      ⟨fun o ho _ => ht.1.op o ho, ht.2⟩) h.wf.toStable hb

theorem Tended.balanced_run (h : k.Tended L) (hU : ∀ s ∈ U, ¬ L.Reserved s)
    (hd : ∀ e ∈ es, Disciplined U e) (hW : ∀ s ∈ W, ¬ L.Reserved s)
    (hfit : Runs.Along (Kernel.entry L) (WordsFit W) es k) (hb : ∀ s ∈ W, k.abs.Balanced s)
    (hrun : Kernel.run L es k = some k') : ∀ s ∈ W, k'.abs.Balanced s :=
  (Runs.run_invariant (I := fun k => k.Tended L ∧ ∀ s ∈ W, k.abs.Balanced s)
    (fun _ _ _ hk hp hr => ⟨hk.1.entry hU hp.1 hr, fun s hs =>
      hk.1.balanced_entry hU hp.1 hp.2 hs (hW s hs) (hk.2 s hs) hr⟩) ⟨h, hb⟩
    ((Runs.along_of_forall (P := fun _ e => Disciplined U e) (fun e he _ => hd e he) k).and hfit)
    hrun).2

theorem Tended.manned_entry (h : k.Tended L) (hU : ∀ s ∈ U, ¬ L.Reserved s)
    (hd : Disciplined U e) (hfit : k.DevicesFit L e) (hm : k.abs.Manned L)
    (hrun : Kernel.entry L e k = some k') : k'.abs.Manned L := by
  rw [(h.entry_eq (h.orderly hU hd) hrun).2]
  exact hm.step (h.wf.toStable.except (R := ∅)) (hd.apart hU).reserved hfit

theorem Tended.manned_run (h : k.Tended L) (hU : ∀ s ∈ U, ¬ L.Reserved s)
    (hd : ∀ e ∈ es, Disciplined U e) (hfit : Runs.Along (Kernel.entry L) (DevicesFit L) es k)
    (hm : k.abs.Manned L) (hrun : Kernel.run L es k = some k') : k'.abs.Manned L :=
  (Runs.run_invariant (I := fun k => k.Tended L ∧ k.abs.Manned L)
    (fun _ _ _ hk hp hr => ⟨hk.1.entry hU hp.1 hr, hk.1.manned_entry hU hp.1 hp.2 hk.2 hr⟩) ⟨h, hm⟩
    ((Runs.along_of_forall (P := fun _ e => Disciplined U e) (fun e he _ => hd e he) k).and hfit)
    hrun).2

end Words

-- Nobody is lost and nobody is queued twice.
structure Conserved (L : Layout) (k : Kernel) : Prop extends Sound L k where
  placed : ∀ p ∉ k.abs.free,
    ((k.abs.procs none).count p = 1 ∧ ∀ s, p ∉ k.abs.procs (some s)) ∨
      (p ∉ k.abs.procs none ∧ ∃ s, (k.abs.procs (some s)).count p = 1 ∧
        ∀ s', p ∈ k.abs.procs (some s') → s' = s)
  freed : ∀ p ∈ k.abs.free, ∀ x, p ∉ k.abs.procs x
  qcount : ∀ p ∉ k.abs.free, (k.procTable p).qcount = 1
  asl : k.ASL.Nodup ∧ none ∉ k.ASL ∧ ∀ s, some s ∈ k.ASL ↔ k.abs.procs (some s) ≠ []
  pclock : ((k.abs.procs (some L.PSEUDO_CLOCK_SEMAPHORE)).length : Int) =
    max 0 (-k.sem L.PSEUDO_CLOCK_SEMAPHORE)

theorem Tended.occupied_card (h : k.Tended L) {p : ProcId} (hp : p ∉ k.abs.free) :
    (occupied k.abs.queue p).card = 1 := by
  obtain ⟨x, hx⟩ := h.placed p hp (by simp)
  obtain ⟨⟨a, i⟩, he, rfl⟩ := List.mem_map.mp hx
  rw [Finset.card_eq_one]
  refine ⟨i, Finset.ext fun j => ?_⟩
  rw [mem_occupied, Finset.mem_singleton]
  constructor
  · rintro ⟨y, hy⟩
    have hxy := h.single.single a (by simp) x y hx (List.mem_map.mpr ⟨_, hy, rfl⟩)
    subst hxy
    exact congrArg Prod.snd (List.inj_on_of_nodup_map (h.wf.distinct x) hy he rfl)
  · rintro rfl
    exact ⟨x, he⟩

theorem Tended.conserved (h : k.Tended L) : k.Conserved L where
  toSound := h.toSound
  placed p hp := by
    obtain ⟨x, hx⟩ := h.placed p hp (by simp)
    have hone := fun y hy => h.single.single p (by simp) y x hy hx
    have hcount := List.count_eq_one_of_mem (h.wf.distinct x) hx
    cases x with
    | none => exact Or.inl ⟨hcount, fun s hs => absurd (hone (some s) hs) (by simp)⟩
    | some s =>
        refine Or.inr ⟨fun hn => absurd (hone none hn) (by simp), s, hcount, fun s' hs' => ?_⟩
        cases hone (some s') hs'
        rfl
  freed p hp x hx := h.wf.live x p hx hp
  qcount p hp := by
    rw [h.rep.queued.linked.qcount p, h.occupied_card hp]
    rfl
  asl := by
    obtain ⟨hnodup, hnone, hiff⟩ := ASL_spec h.rep.toCore
    refine ⟨hnodup, hnone, fun s => ?_⟩
    rw [hiff s, Sched.procs, ne_eq, ne_eq, List.map_eq_nil_iff]
  pclock := by
    have hl := h.wf.pclock
    rw [Sched.level] at hl
    rw [Sched.length_procs]
    change ((k.abs.queue (some L.PSEUDO_CLOCK_SEMAPHORE)).length : Int) =
      max 0 (-k.abs.sem L.PSEUDO_CLOCK_SEMAPHORE)
    omega

-- Disciplined entries in any order lose nobody and never run out of descriptors. A
-- semaphore's word counts who waits for it as long as it stays in the range of an
-- int, and no entry gets stuck as long as those of the devices do.
theorem run_conserved (L : Layout) (U : Set Addr) (p1 : State) (currentTime : Int) (k : Kernel)
    (hU : ∀ s ∈ U, ¬ L.Reserved s ∧ 0 ≤ k.sem s) :
    ∃ k₁, main L p1 currentTime k = some k₁ ∧
      ∀ es, (∀ e ∈ es, Disciplined U e) → ∀ k₂, Kernel.run L es k₁ = some k₂ →
        k₂.Conserved L ∧
        (Runs.Along (Kernel.entry L) (WordsFit U) es k₁ →
          ∀ s ∈ U, ((k₂.abs.procs (some s)).length : Int) = max 0 (-k₂.sem s)) ∧
        ∀ e, Disciplined U e → k₂.Enabled e = true →
          (∀ m s p, Blocking L k₂ e m s p → ∃ m', m.insertBlocked s p = some (m', false)) ∧
            (Runs.Along (Kernel.entry L) (DevicesFit L) es k₁ → ∃ k₃, entry L e k₂ = some k₃) := by
  obtain ⟨k₁, hmain, -, -⟩ := main_sound L p1 currentTime k
  refine ⟨k₁, hmain, fun es hes k₂ hrun => ?_⟩
  have hres := fun s hs => (hU s hs).1
  have ht := main_tended hmain
  have ht₂ := ht.run hres hes hrun
  refine ⟨ht₂.conserved, fun hfit s hs => ?_, fun e he hen => ?_⟩
  · rw [Sched.length_procs]
    exact ht.balanced_run hres hes hres hfit (main_balanced hU hmain) hrun s hs
  · have hor := ht₂.orderly hres he
    refine ⟨fun m s p hb => (ht₂.toSound.blocking hor hb).imp fun _ hins => hins.1, fun hfit => ?_⟩
    have hman := ht.manned_run hres hes hfit (main_manned hmain) hrun
    obtain ⟨k₃, hk₃, -, -⟩ := ht₂.toSound.entry hor (hman.answers e) hen
    exact ⟨k₃, hk₃⟩

section Sample

open Sample

theorem disciplined_of_ne {U : Set Addr} (h : e.call ≠ some 3) (h' : e.call ≠ some 8) :
    Disciplined U e :=
  ⟨fun hc => absurd hc h, fun hc => absurd hc h'⟩

-- One process waits for the other when both are on their queues.
theorem disciplined_sample : ∀ e ∈ [fork, locked [7], clock, locked [7]],
    Disciplined layout.user e := by decide

-- Three children. The first process waits on 7, and the first child ends. The second
-- waits for a device, and the third lets the first go on; then both wait on 7.
def busy : List Event :=
  [fork, fork, fork, locked [7], sys 2 0 0 0 [], waitio 0, sys3 [⟨UNLOCK, 7⟩], locked [7],
    locked [7], interrupted 0 ⟨5, 6⟩]

theorem run_conserved_sample : ∃ k₁, main layout state 0 cold = some k₁ ∧
    ∃ k₂, Kernel.run layout busy k₁ = some k₂ ∧ k₂.Conserved layout ∧ k₂.sem 7 = -2 ∧
      (k₂.abs.procs (some 7)).length = 2 ∧ ∃ k₃, entry layout (sys 7 0 0 0 []) k₂ = some k₃ := by
  obtain ⟨k₁, hmain, hall⟩ := run_conserved layout layout.user state 0 cold
    fun s hs => ⟨hs, le_refl 0⟩
  have hval : ((main layout state 0 cold).bind fun k => (Kernel.run layout busy k).map fun k' =>
      (k'.sem 7, decide (k'.Enabled (sys 7 0 0 0 []) = true),
        decide (Runs.Along (Kernel.entry layout) (WordsFit layout.user) busy k),
        decide (Runs.Along (Kernel.entry layout) (DevicesFit layout) busy k))) =
      some (-2, true, true, true) := by decide +kernel
  rw [hmain, Option.bind_some] at hval
  obtain ⟨k₂, hrun, heq⟩ := Option.map_eq_some_iff.mp hval
  simp only [Prod.mk.injEq, decide_eq_true_eq] at heq
  obtain ⟨hsem, hen, hwords, hdevices⟩ := heq
  obtain ⟨hcons, hcount, hnext⟩ := hall busy (by decide) k₂ hrun
  have hseven := hcount hwords 7 (by decide)
  rw [hsem] at hseven
  exact ⟨k₁, hmain, k₂, hrun, hcons, hsem, by omega,
    (hnext (sys 7 0 0 0 []) (by decide) hen).2 hdevices⟩

-- A V takes the largest int to the smallest, and nobody waits.
theorem word_overflows : ∃ k₁ k₂,
    main layout state 0 { cold with sem := fun _ => 2147483647 } = some k₁ ∧
    Disciplined layout.user (sys3 [⟨UNLOCK, 7⟩]) ∧
    Kernel.run layout [sys3 [⟨UNLOCK, 7⟩]] k₁ = some k₂ ∧ k₂.sem 7 = -2147483648 ∧
    k₂.abs.procs (some 7) = [] ∧
    ((k₂.abs.procs (some 7)).length : Int) ≠ max 0 (-k₂.sem 7) := by
  obtain ⟨k₁, hmain, -, -⟩ := main_sound layout state 0 { cold with sem := fun _ => 2147483647 }
  have hval : ((main layout state 0 { cold with sem := fun _ => 2147483647 }).bind fun k =>
      (Kernel.run layout [sys3 [⟨UNLOCK, 7⟩]] k).map fun k' => (k'.sem 7, k'.abs.procs (some 7))) =
      some (-2147483648, []) := by decide +kernel
  rw [hmain, Option.bind_some] at hval
  obtain ⟨k₂, hrun, heq⟩ := Option.map_eq_some_iff.mp hval
  obtain ⟨hsem, hprocs⟩ := Prod.mk.inj heq
  refine ⟨k₁, k₂, hmain, by decide, hrun, hsem, hprocs, ?_⟩
  rw [hsem, hprocs]
  decide

end Sample

-- What intdeadlock decides about a kernel with nobody ready, and what the last
-- entry has decided, is the truth about the processes.
theorem intdeadlock_truthful (L : Layout) (U : Set Addr) (p1 : State) (currentTime : Int)
    (k : Kernel) (hU : ∀ s ∈ U, ¬ L.Reserved s) {k₁ k₂ : Kernel} {es : List Event}
    (hmain : main L p1 currentTime k = some k₁) (hes : ∀ e ∈ es, Disciplined U e)
    (hrun : Kernel.run L es k₁ = some k₂) (hready : k₂.abs.procs none = []) :
    ∃ k₃, k₂.intdeadlock L = some k₃ ∧ k₃.cpu = k₂.cpu ∧
      (k₃.cpu = .halted "nucleus: normal termination" ↔ ∀ p, p ∈ k₂.abs.free) ∧
      (k₃.cpu = .asleep ↔
        ∃ p, p ∉ k₂.abs.free ∧ ∃ s, L.Reserved s ∧ p ∈ k₂.abs.procs (some s)) ∧
      ((∃ p, p ∉ k₂.abs.free ∧ p ∈ k₂.abs.procs (some L.PSEUDO_CLOCK_SEMAPHORE)) →
        k₃.intervalTimer = some QUANTUM) ∧
      (k₃.cpu = .halted "nucleus: deadlock termination" ↔
        (∃ p, p ∉ k₂.abs.free) ∧
          ∀ p ∉ k₂.abs.free, ∃ s, ¬ L.Reserved s ∧ p ∈ k₂.abs.procs (some s)) := by
  have ht := (main_tended hmain).run hU hes hrun
  have hq : k₂.abs.queue none = [] := List.map_eq_nil_iff.mp hready
  obtain ⟨k₃, hrun₃, hcore, -⟩ := intdeadlock_spec (L := L) ht.rep.toCore
  have hcpu : k₃.cpu = (k₂.abs.intdeadlock L).cpu := by rw [hcore.env]
  have hlast : k₃.cpu = k₂.cpu := by
    rw [hcpu, ht.wf.settled hq]
    rfl
  obtain ⟨hnormal, hsleep, hdead⟩ :=
    Sched.intdeadlock_truth ht.wf.toLawful ht.single ht.placed hq
  refine ⟨k₃, hrun₃, hlast, hcpu ▸ hnormal, hcpu ▸ hsleep, ?_, hcpu ▸ hdead⟩
  rintro ⟨p, -, hp⟩
  rw [show k₃.intervalTimer = (k₂.abs.intdeadlock L).intervalTimer by rw [hcore.env]]
  exact Sched.intdeadlock_timer (Sched.queue_ne_nil_of_mem hp)

theorem intdeadlock_truthful_sample : ∃ k₂ k₃ : Kernel, k₂.intdeadlock Sample.layout = some k₃ ∧
    (k₃.cpu = .halted "nucleus: normal termination" ↔ ∀ p, p ∈ k₂.abs.free) ∧
    k₃.cpu = .halted "nucleus: deadlock termination" := by
  obtain ⟨k₁, hmain, -, -⟩ := main_sound Sample.layout Sample.state 0 Sample.cold
  have hend : ((main Sample.layout Sample.state 0 Sample.cold).bind fun k =>
      (Kernel.run Sample.layout [Sample.fork, Sample.locked [7], Sample.clock, Sample.locked [7]]
        k).map fun k => (k.abs.procs none, k.cpu)) =
      some ([], .halted "nucleus: deadlock termination") := by decide +kernel
  rw [hmain, Option.bind_some] at hend
  obtain ⟨k₂, hrun, heq⟩ := Option.map_eq_some_iff.mp hend
  obtain ⟨k₃, hdead, hcpu, hnormal, -⟩ := intdeadlock_truthful Sample.layout
    Sample.layout.user Sample.state 0 Sample.cold (fun s hs => hs) hmain
    disciplined_sample hrun (congrArg Prod.fst heq)
  exact ⟨k₂, k₃, hdead, hnormal, hcpu.trans (congrArg Prod.snd heq)⟩

end Kernel

end Hoca
