import Hoca.Refine.Step
import Hoca.Sched.Preserve

namespace Hoca

open Links Forest

namespace Sched

-- What init leaves: no process, no queue.
def initial (env : Env) (context : ProcId → Context) : Sched where
  toEnv := env
  queue _ := []
  free := List.finRange MAXPROC
  parent _ := none
  children _ := []
  context := context

-- What main leaves but for schedule: the first process is ready.
noncomputable def first (v : Sched) (p1 : State) : Sched :=
  ({ v with free := v.free.tail }.saveState 0 p1).insertReady 0

theorem stable_first {L : Layout} {env : Env} {context : ProcId → Context} (p1 : State)
    (hsem : ∀ s, L.Reserved s → env.sem s = 0) : ((initial env context).first p1).Stable L := by
  have hfree : ∀ p : ProcId, p ∉ (initial env context).free.tail ↔ p = 0 :=
    show ∀ p, p ∉ (List.finRange MAXPROC).tail ↔ p = 0 by decide
  have hempty : ∀ s, ((initial env context).first p1).queue (some s) = [] := by
    intro s
    simp only [first, Sched.insertReady]
    rw [enqueue_of_ne (by simp)]
    rfl
  have hnone : ({ initial env context with free := (initial env context).free.tail }.saveState 0
      p1).LawfulExcept L ∅ none :=
    ⟨fun x _ => by simp [procs, initial, saveState, setContext],
      fun e he => by simp [initial, saveState, setContext] at he,
      fun p hp => by simp [procs, initial, saveState, setContext] at hp,
      fun x p hp => by simp [procs, initial, saveState, setContext] at hp,
      fun s _ e he => by simp [initial, saveState, setContext] at he,
      fun s _ p hp => by simp [procs, initial, saveState, setContext] at hp⟩
  have hlevel : ∀ s, L.Reserved s → ((initial env context).first p1).level s = 0 := by
    intro s hs
    rw [level, hempty]
    simpa [first, initial, Sched.insertReady, saveState, setContext] using hsem s hs
  refine ⟨(hnone.insertReady (fun x => by simp [procs, initial, saveState, setContext])
    ((hfree 0).mpr rfl)).exact, (List.nodup_finRange MAXPROC).tail, ⟨fun p => [p], ?_⟩, hlevel _ (Or.inl rfl)⟩
  refine ⟨fun a c => by simp [first, initial, Sched.insertReady, saveState, setContext],
    fun a => by simp [first, initial, Sched.insertReady, saveState, setContext],
    fun a c hc => by simp [first, initial, Sched.insertReady, saveState, setContext] at hc,
    fun p _ => by simp, fun p hp a ha => ?_, fun p _ => ?_⟩
  · rw [List.mem_singleton] at ha
    exact ha ▸ hp
  · simp [first, initial, Sched.insertReady, saveState, setContext]

end Sched

variable {L : Layout} {k : Kernel}

theorem init_sem (L : Layout) (k : Kernel) {s : Addr} (hs : L.Reserved s) :
    ((k.load L).init L).sem s = 0 := by
  by_cases hd : ∃ d, s = L.device d
  · simp [Kernel.init, Kernel.intinit, hd]
  · obtain rfl := hs.resolve_right hd
    simp [Kernel.init, Kernel.intinit, hd, Kernel.initProc, Kernel.initSemd, Kernel.load,
      Kernel.setSem]

-- init makes both tables one free list each.
theorem init_spec (L : Layout) (k : Kernel) :
    Rep (k.init L) (Sched.initial (k.init L).toEnv fun p => ((k.init L).procTable p).toContext) := by
  have hall : ∀ p : ProcId, p ∈ List.finRange MAXPROC := List.mem_finRange
  refine ⟨⟨rfl, ⟨⟨?_, ?_, ?_, ?_, ?_, ?_⟩, rfl, [], List.finRange MAXPROC, ?_⟩,
    freeList_initProc { k with readyQueue := .null }, fun _ => rfl⟩, ?_, ?_, ?_⟩
  · exact fun _ => trivial
  · exact fun _ => List.nodup_nil
  · exact fun x y e he => by simp [Sched.initial] at he
  · exact fun p hp => absurd (hall p) hp
  · intro p
    rw [occupied_eq_empty fun x => by simp [Sched.initial]]
    rfl
  · exact fun p _ x i => by simp [Sched.initial]
  · refine ⟨⟨?_, ?_, ?_, ?_, ?_⟩, ?_, ?_, ?_⟩
    · rw [List.map_nil, doubly_nil]
      rfl
    · exact chain_finRange fun a => rfl
    · rw [List.map_nil, List.nil_append]
      exact List.nodup_finRange MAXPROC
    · exact fun e he => by simp at he
    · exact List.Pairwise.nil
    · exact fun d => List.mem_append_right _ (List.mem_finRange d)
    · exact fun e he => by simp at he
    · exact fun s => by simp [Sched.initial]
  · exact fun p hp => absurd (hall p) hp
  · exact fun p hp => absurd (hall p) hp
  · exact fun p hp => absurd (hall p) hp

namespace Sched

noncomputable def boot (L : Layout) (p1 : State) (currentTime : Int) (k : Kernel) : Sched :=
  ((initial ((k.load L).init L).toEnv fun p =>
    (((k.load L).init L).procTable p).toContext).first p1).schedule L currentTime

theorem boot_wf (L : Layout) (p1 : State) (currentTime : Int) (k : Kernel) :
    (boot L p1 currentTime k).Wf L :=
  ((stable_first p1 fun _ => init_sem L k).except.schedule currentTime).exact

end Sched

-- main hands over to schedule with the first process ready.
theorem main_spec (L : Layout) (p1 : State) (currentTime : Int) (k : Kernel) :
    ∃ k', Kernel.main L p1 currentTime k = some k' ∧ Rep k' (Sched.boot L p1 currentTime k) := by
  have hinit := init_spec L (k.load L)
  have hzero : (0 : ProcId) ∉ (List.finRange MAXPROC).tail := by decide
  have hfree : (Sched.initial ((k.load L).init L).toEnv fun p =>
      (((k.load L).init L).procTable p).toContext).free = 0 :: (List.finRange MAXPROC).tail := rfl
  obtain ⟨k₁, halloc, hcore₁, hsame₁⟩ := allocProc_spec hinit.toCore hfree
  have hsave := hcore₁.saveState 0 p1
  have hempty : occupied (Sched.initial ((k.load L).init L).toEnv fun p =>
      (((k.load L).init L).procTable p).toContext).queue 0 = ∅ :=
    occupied_eq_empty fun x => by simp [Sched.initial]
  obtain ⟨k₂, hins, hcore₂, hsame₂⟩ := insertReady_spec hsave.1 (p := 0) hzero
    (by simp [Sched.saveState, Sched.setContext, hempty])
  obtain ⟨k₃, hsched, hcore₃, hsame₃⟩ := schedule_spec (L := L) hcore₂ currentTime
  have hkin : ∀ p, (k₃.procTable p).toKin = ⟨none, none, none⟩ := by
    intro p
    rw [hsame₃ p, hsame₂ p, hsave.2 p, hsame₁ p]
    rfl
  refine ⟨k₃, ?_, hcore₃, fun p hp => ?_, fun p hp => ?_, fun p _ _ => by rw [hkin p]⟩
  · simp only [Kernel.main, halloc, hins, hsched, Option.bind_eq_bind, Option.bind_some]
  · rw [hkin p, Sched.boot, Sched.schedule_parent]
    rfl
  · rw [hkin p, Sched.boot, Sched.schedule_children]
    exact (chain_nil _).mpr rfl

end Hoca
