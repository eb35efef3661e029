import Hoca.Support.Isolation

namespace Hoca.Support.Memory

variable {l : Linker} {g : Frames} {s s' s₀ : Memory} {a : MmAction} {i : Term}
  {frames frames' : List ℕ}

-- The frames that getfreeframe has returned, in order.
def returned (s : Memory) (a : MmAction) (_ : Memory) (frames : List ℕ) : List ℕ :=
  match a with
  | .fault .. => frames
  | .handle i =>
      match s.handler i with
      | .unlockCounter _ frame => frames ++ [frame]
      | _ => frames

-- The memory before p1 asks for the pages with the bootcode.
def fresh (l : Linker) (g : Frames) : Memory where
  pd := fun _ => ⟨false, 0⟩
  kernel_mode_pd_table := kernelPage l g
  cron_pd_table := cronPage l g
  pf_start := g.pf_start
  pf_ctr := 0
  sems := ⟨fun x => if x = .sem_pf then MAXFRAMES else 1, fun _ => []⟩
  handler := fun _ => .user

theorem p1_eq (l : Linker) :
    p1 l = (pageinit l).map fun g => (List.finRange MAXTPROC).foldl bootPage (fresh l g) := rfl

-- The frames p1 gets for the pages with the bootcode.
def bootReturned : List Term → Memory → List ℕ
  | [], _ => []
  | i :: is, s => s.getfreeframe.1 :: bootReturned is (s.bootPage i)

def p1Returned (l : Linker) : List ℕ :=
  ((pageinit l).map fun g => bootReturned (List.finRange MAXTPROC) (fresh l g)).getD []

-- The frames come in order, and the counter is ahead of them by the one that a
-- handler is about to return.
structure Counted (s : Memory) (frames : List ℕ) : Prop where
  order : frames = (List.range frames.length).map (s.pf_start + ·)
  ahead : ∀ i d f, s.handler i = .unlockCounter d f →
    f = s.pf_start + frames.length ∧ s.pf_ctr = frames.length + 1
  level : (∀ i d f, s.handler i ≠ .unlockCounter d f) → s.pf_ctr = frames.length

theorem Counted.mem_lt (h : Counted s frames) {f : ℕ} (hf : f ∈ frames) :
    f < s.pf_start + frames.length := by
  rw [h.order] at hf
  obtain ⟨n, hn, rfl⟩ := List.mem_map.mp hf
  have hlt := List.mem_range.mp hn
  omega

theorem Counted.length_le (h : Counted s frames) : frames.length ≤ s.pf_ctr := by
  by_cases hout : ∃ i d f, s.handler i = .unlockCounter d f
  · obtain ⟨i, d, f, hpc⟩ := hout
    have hahead := (h.ahead i d f hpc).2
    omega
  · push Not at hout
    exact (h.level hout).ge

-- A step after which the same handlers are about to return a frame.
theorem Counted.keep (h : Counted s frames) (hstart : s'.pf_start = s.pf_start)
    (hctr : s'.pf_ctr = s.pf_ctr)
    (hpc : ∀ i d f, s'.handler i = .unlockCounter d f ↔ s.handler i = .unlockCounter d f) :
    Counted s' frames where
  order := by
    rw [hstart]
    exact h.order
  ahead i d f hf := by
    rw [hstart, hctr]
    exact h.ahead i d f ((hpc i d f).mp hf)
  level hout := by
    rw [hctr]
    exact h.level fun i d f hf => hout i d f ((hpc i d f).mpr hf)

theorem unlockCounter_iff {pc pc' : MmPc} (hpc : s.handler i = pc)
    (hold : ∀ d f, pc ≠ .unlockCounter d f) (hnew : ∀ d f, pc' ≠ .unlockCounter d f) (j : Term)
    (d : Desc) (f : ℕ) : (s.setHandler i pc').handler j = .unlockCounter d f ↔
      s.handler j = .unlockCounter d f := by
  by_cases hj : j = i
  · subst hj
    simp only [setHandler, Function.update_self, hpc]
    exact iff_of_false (hnew d f) (hold d f)
  · simp only [setHandler, Function.update_of_ne hj]

-- Only the process in the section of sem_mm is about to return a frame.
theorem Isolated.not_unlockCounter (h : s.Isolated) {pc : MmPc} (hpc : s.handler i = pc)
    (hlocks : pc.Locks) (hmm : Proc.term i ∉ s.sems.queue .sem_mm) {j : Term} (hj : j ≠ i)
    (d : Desc) (f : ℕ) : s.handler j ≠ .unlockCounter d f := by
  intro hpcj
  have hstarts := Support.Isolated.alone h (hpc ▸ hlocks) hmm hj (by rw [hpcj]; trivial)
  rw [hpcj] at hstarts
  exact hstarts

-- A handler takes the frame the counter stands for.
theorem Counted.takes (h : Counted s frames) (hnone : ∀ j d f, s.handler j ≠ .unlockCounter d f)
    (i : Term) (d : Desc) :
    Counted { s.setHandler i (.unlockCounter d (s.pf_ctr + s.pf_start)) with
      pf_ctr := s.pf_ctr + 1 } frames := by
  have hlevel := h.level hnone
  refine ⟨h.order, fun j d' f hf => ?_, fun hout => ?_⟩
  · by_cases hj : j = i
    · subst hj
      simp only [setHandler, Function.update_self, MmPc.unlockCounter.injEq] at hf
      dsimp only [setHandler]
      omega
    · simp only [setHandler, Function.update_of_ne hj] at hf
      exact absurd hf (hnone j d' f)
  · exact absurd (Function.update_self i _ s.handler) (hout i d _)

-- And returns it.
theorem Counted.returns (h : Counted s frames) {d : Desc} {f : ℕ}
    (hpc : s.handler i = .unlockCounter d f)
    (hother : ∀ j, j ≠ i → ∀ d f, s.handler j ≠ .unlockCounter d f)
    (sems : Semaphores.Sems PageSem Proc) :
    Counted { s.setHandler i (.lockDesc d f) with sems := sems } (frames ++ [f]) := by
  obtain ⟨hf, hctr⟩ := h.ahead i d f hpc
  refine ⟨?_, fun j d' f' hf' => ?_, fun _ => ?_⟩
  · rw [List.length_append, List.length_singleton, List.range_succ, List.map_append, hf]
    exact congrArg (· ++ _) h.order
  · by_cases hj : j = i
    · subst hj
      simp only [setHandler, Function.update_self] at hf'
      cases hf'
    · simp only [setHandler, Function.update_of_ne hj] at hf'
      exact absurd hf' (hother j hj d' f')
  · rw [List.length_append, List.length_singleton]
    exact hctr

theorem Counted.handle (h : Counted s frames) (hi : s.Isolated)
    (hmm : Proc.term i ∉ s.sems.queue .sem_mm) (hs : s.handle i = some s') :
    Counted s' (returned s (.handle i) s' frames) := by
  unfold Memory.handle at hs
  unfold returned
  split at hs
  · cases hs
  · next d hpc =>
    cases hs
    simp only [hpc]
    exact h.keep rfl rfl (unlockCounter_iff hpc nofun nofun)
  · next d hpc =>
    cases hs
    simp only [hpc]
    exact h.keep rfl rfl (unlockCounter_iff hpc nofun nofun)
  · next d hpc =>
    cases hs
    simp only [hpc]
    exact h.keep rfl rfl (unlockCounter_iff hpc nofun nofun)
  · next d c hpc =>
    cases hs
    simp only [hpc]
    have hnone : ∀ j d f, s.handler j ≠ .unlockCounter d f := by
      intro j d' f
      by_cases hj : j = i
      · subst hj
        rw [hpc]
        nofun
      · exact hi.not_unlockCounter hpc trivial hmm hj d' f
    obtain rfl := Support.Isolated.read hi i d c hpc
    exact h.takes hnone i d
  · next d f hpc =>
    cases hs
    simp only [hpc]
    exact h.returns hpc (fun j hj => hi.not_unlockCounter hpc trivial hmm hj) _
  · next d f hpc =>
    cases hs
    simp only [hpc]
    exact h.keep rfl rfl (unlockCounter_iff hpc nofun nofun)
  · next d f hpc =>
    cases hs
    simp only [hpc]
    exact h.keep rfl rfl (unlockCounter_iff hpc nofun nofun)
  · next d f hpc =>
    cases hs
    simp only [hpc]
    exact h.keep rfl rfl (unlockCounter_iff hpc nofun nofun)
  · next d hpc =>
    cases hs
    simp only [hpc]
    exact h.keep rfl rfl (unlockCounter_iff hpc nofun nofun)
  · cases hs

theorem Counted.step (h : Counted s frames) (hi : s.Isolated) (hs : Memory.step a s = some s') :
    Counted s' (returned s a s' frames) := by
  cases a with
  | fault i typ seg pg =>
      obtain ⟨hpc, -, rfl⟩ := step_fault hs
      refine h.keep rfl rfl (unlockCounter_iff hpc nofun fun d f => ?_)
      rcases slmmhandler_cases i typ seg pg with hc | ⟨d', hc⟩
      · rw [hc]
        nofun
      · rw [hc]
        nofun
  | handle i =>
      obtain ⟨-, hmm, hs⟩ := step_handle hs
      exact h.handle hi hmm hs

theorem Counted.boot (is : List Term) (h : Counted s frames) (hidle : ∀ i, s.handler i = .user) :
    Counted (is.foldl bootPage s) (frames ++ bootReturned is s) := by
  induction is generalizing s frames with
  | nil =>
      rw [bootReturned, List.append_nil]
      exact h
  | cons i is ih =>
      have hlevel := h.level fun j d f hf => by
        rw [hidle j] at hf
        cases hf
      have hnext : Counted (s.bootPage i) (frames ++ [s.getfreeframe.1]) := by
        refine ⟨?_, fun j d f hf => ?_, fun _ => ?_⟩
        · rw [List.length_append, List.length_singleton, List.range_succ, List.map_append,
            List.map_singleton, ← hlevel, Nat.add_comm]
          exact congrArg (· ++ _) (hlevel ▸ h.order)
        · cases (hidle j).symm.trans hf
        · rw [List.length_append, List.length_singleton, ← hlevel]
          rfl
      have hrest := ih hnext hidle
      rw [List.append_assoc, List.singleton_append] at hrest
      exact hrest

theorem p1_counted (h : p1 l = some s₀) : Counted s₀ (p1Returned l) := by
  rw [p1_eq] at h
  obtain ⟨g, hg, rfl⟩ := Option.map_eq_some_iff.mp h
  have hfresh : Counted (fresh l g) [] := ⟨rfl, nofun, fun _ => rfl⟩
  have hboot := hfresh.boot (List.finRange MAXTPROC) fun _ => rfl
  rw [p1Returned, hg]
  exact hboot

-- The frames of a run lie in memory unless end is on the last page that pageinit
-- accepts and every frame of the pool has been handed out.
theorem run_frames_iff {as : List MmAction} (hboot : p1 l = some s₀)
    (hrun : Runs.run (Runs.watched Memory.step returned) as (s₀, p1Returned l) =
      some (s, frames)) :
    (∀ f ∈ frames, f < KERNEL_PAGES) ↔
      l.end_ / PAGESIZE < 220 ∨ frames.length < MAXFRAMES := by
  obtain ⟨g, hg, hbooted⟩ := p1_booted hboot
  obtain ⟨hend, hstart, -, -⟩ := pageinit_eq hg
  obtain ⟨hrunning, hcounted⟩ := Runs.run_preserves
    (I := fun r : Memory × List ℕ => Running l g r.1 ∧ Counted r.1 r.2)
    (fun r a r' hr hs => by
      obtain ⟨s', hs', rfl⟩ := Option.map_eq_some_iff.mp hs
      exact ⟨hr.1.step hg hs', hr.2.step hr.1.isolated hs'⟩)
    ⟨hbooted.running, p1_counted hboot⟩ hrun
  dsimp only at hrunning hcounted
  have hbase : s.pf_start = l.end_ / PAGESIZE + 17 := hrunning.start.trans hstart
  have hbound : s.pf_ctr ≤ MAXFRAMES := Support.Isolated.bound hrunning.isolated
  have hlength := hcounted.length_le
  simp only [KERNEL_PAGES, MAXFRAMES] at hbound ⊢
  constructor
  · intro hall
    by_contra hfull
    push Not at hfull
    have hlast : s.pf_start + 19 ∈ frames := by
      rw [hcounted.order]
      exact List.mem_map.mpr ⟨19, List.mem_range.mpr (by omega), rfl⟩
    have hlt := hall _ hlast
    omega
  · intro hor f hf
    have hlt := hcounted.mem_lt hf
    omega

theorem run_frames_small :
    ∃ s₀ s frames, p1 small = some s₀ ∧
      Runs.run (Runs.watched Memory.step returned) faults (s₀, p1Returned small) =
        some (s, frames) ∧ ∀ f ∈ frames, f < KERNEL_PAGES := by
  have hsome : ((p1 small).bind fun s₀ => Runs.run (Runs.watched Memory.step returned) faults
      (s₀, p1Returned small)).isSome = true := by decide +kernel
  obtain ⟨⟨s, frames⟩, hs⟩ := Option.isSome_iff_exists.mp hsome
  obtain ⟨s₀, hboot, hrun⟩ := Option.bind_eq_some_iff.mp hs
  exact ⟨s₀, s, frames, hboot, hrun, (run_frames_iff hboot hrun).mpr (Or.inl (by decide))⟩

-- The support level ends on page 220 and a T-process touches eighteen pages.
def large : Linker where
  startt1 := 0x3000
  etext := 0x4800
  startd1 := 0x4800
  edata := 0x5000
  startb1 := 0x5000
  end_ := 220 * PAGESIZE
  text := small.text
  text_data := small.text_data
  data := small.data
  data_bss := small.data_bss
  bss := by decide

def touches : List MmAction :=
  (List.range 18).flatMap fun pg => .fault 0 PAGEMISS 1 pg :: List.replicate 9 (.handle 0)

theorem run_frames_large :
    ∃ s₀ s frames, p1 large = some s₀ ∧
      Runs.run (Runs.watched Memory.step returned) touches (s₀, p1Returned large) =
        some (s, frames) ∧ KERNEL_PAGES ∈ frames := by
  have hrun : ((p1 large).bind fun s₀ => (Runs.run (Runs.watched Memory.step returned) touches
      (s₀, p1Returned large)).map Prod.snd) = some ((List.range 20).map (237 + ·)) := by
    decide +kernel
  obtain ⟨s₀, hboot, hrun⟩ := Option.bind_eq_some_iff.mp hrun
  obtain ⟨⟨s, frames⟩, hrun, hframes⟩ := Option.map_eq_some_iff.mp hrun
  refine ⟨s₀, s, frames, hboot, hrun, ?_⟩
  rw [show frames = _ from hframes]
  decide

end Hoca.Support.Memory
