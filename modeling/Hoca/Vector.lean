import Hoca.Repeats

namespace Hoca

variable {L : Layout} {k k' : Kernel} {v : Sched} {e : Event} {p : ProcId} {ops : List Vpop}

-- semop up to schedule.
theorem semopVector_spec (h : Core k v) (ht : v.Tidy) (hr : v.running = some p)
    (hfit : Sched.AllFit ops p v) :
    ∃ k', k.semopVector ops = some (k', (Sched.semopLoop ops p v false).2) ∧
      Core k' (v.vectored ops p) := by
  obtain ⟨k₁, hrun, hcore, -⟩ := semopLoop_spec h hr false hfit
  unfold Kernel.semopVector Sched.vectored
  rw [hrun]
  generalize hb : (Sched.semopLoop ops p v false).2 = b
  cases b with
  | false => exact ⟨k₁, rfl, by simpa [hb] using hcore⟩
  | true =>
      have hready := Sched.ready_semopLoop (p := p) ht.ready ops false
      obtain ⟨k₂, hrem, hcore₂, -⟩ := removeReady_spec hcore (cleanHead_of_slot hready)
      exact ⟨k₂, by simp [hrem], by simpa [hb] using hcore₂⟩

namespace Kernel

section Sample

open Sample

end Sample

section Run

variable {U : Set Addr} {k₁ k₂ k₃ : Kernel} {es : List Event} {p1 : State} {currentTime : Int}

-- An orderly entry whose vector is of P and V on the given semaphores, which stay
-- within the range of an int, and undoes none of the P that its caller has to wait for.
structure Proper (L : Layout) (U : Set Addr) (k : Kernel) (e : Event) : Prop
    extends Orderly L k e, Steady U k e

theorem Proper.repeats (hp : k.Proper L U e) (h : k.Kept L U) : k.Repeats L U e :=
  ⟨hp.toSteady, hp.admits, h.wf.sheds hp.admits⟩

theorem Kept.entry (h : k.Kept L U) (hU : ∀ s ∈ U, ¬ L.Reserved s) (hp : k.Proper L U e)
    (hrun : Kernel.entry L e k = some k') : k'.Kept L U := by
  have hk' := (h.repeated.entry hU (hp.repeats h) hrun).2
  exact ⟨(h.entry_eq hp.toOrderly hrun).1, hk'.placed, hk'.balanced⟩

theorem Kept.run (h : k.Kept L U) (hU : ∀ s ∈ U, ¬ L.Reserved s)
    (hp : Runs.Along (Kernel.entry L) (Proper L U) es k) (hrun : Kernel.run L es k = some k') :
    k'.Kept L U :=
  Runs.run_invariant (fun _ _ _ hk hp hr => hk.entry hU hp hr) h hp hrun

theorem Kept.repeats_along (h : k.Kept L U) (hU : ∀ s ∈ U, ¬ L.Reserved s)
    (hp : Runs.Along (Kernel.entry L) (Proper L U) es k) :
    Runs.Along (Kernel.entry L) (Repeats L U) es k :=
  Runs.along_of_invariant (fun _ _ _ hk hp hr => hk.entry hU hp hr)
    (fun _ _ hk hp => hp.repeats hk) h hp

theorem Kept.proper_along (h : k.Kept L U) (hU : ∀ s ∈ U, ¬ L.Reserved s)
    (hes : Runs.Along (Kernel.entry L)
      (fun k e => k.Affords L e ∧ Sched.Apart L e ∧ k.Steady U e) es k) :
    Runs.Along (Kernel.entry L) (Proper L U) es k :=
  have hall : ∀ (k : Kernel) e, k.Kept L U → k.Affords L e ∧ Sched.Apart L e ∧ k.Steady U e →
      k.Proper L U e :=
    fun _ _ hk hp => ⟨⟨hk.rep.admits hp.1, hp.2.1⟩, hp.2.2⟩
  Runs.along_of_invariant (fun k e _ hk hp hr => hk.entry hU (hall k e hk hp) hr) hall h hes

-- As long as a descriptor is at hand for every process that has to wait, nobody
-- is lost, and who has to wait ends up on the queue it waits for.
theorem proper_run_placed (hU : ∀ s ∈ U, ¬ L.Reserved s ∧ 0 ≤ k.sem s)
    (hmain : main L p1 currentTime k = some k₁)
    (hes : Runs.Along (Kernel.entry L) (Proper L U) es k₁)
    (hrun : Kernel.run L es k₁ = some k₂) :
    (∀ p ∉ k₂.abs.free, ∃ x, p ∈ k₂.abs.procs x) ∧
      (∀ s ∈ U, ((k₂.abs.procs (some s)).length : Int) = max 0 (-k₂.sem s)) ∧
      ∀ e, Proper L U k₂ e → k₂.Enabled e = true →
        (∀ m s p, Blocking L k₂ e m s p →
            ∃ m', m.insertBlocked s p = some (m', false) ∧ p ∈ m'.abs.procs (some s)) ∧
          (Runs.Along (Kernel.entry L) (DevicesFit L) es k₁ →
            ∃ k₃, Kernel.entry L e k₂ = some k₃) := by
  have hU' : ∀ s ∈ U, ¬ L.Reserved s := fun s hs => (hU s hs).1
  have hk₁ := main_kept hU hmain
  have hk := hk₁.run hU' hes hrun
  refine ⟨fun p hp => hk.placed p hp (by simp), fun s hs => ?_, fun e he hen => ?_⟩
  · rw [Sched.length_procs]
    exact hk.balanced s hs
  · refine ⟨fun m s p hb => hk.toSound.blocking he.toOrderly hb, fun hfit => ?_⟩
    have hman := hk₁.repeated.manned_run hU' (hk₁.repeats_along hU' hes) hfit (main_manned hmain)
      hrun
    obtain ⟨k₃, hk₃, -, -⟩ := hk.toSound.entry he.toOrderly (hman.answers e) hen
    exact ⟨k₃, hk₃⟩

-- What an entry does to the queues of the processes' semaphores.
structure Tracked (L : Layout) (k : Kernel) (e : Event) (k' : Kernel) : Prop where
  other : e.call ≠ some 3 → ∀ s, ¬ L.Reserved s →
    k'.abs.procs (some s) = (k.abs.procs (some s)).filter fun p => p ∉ k'.abs.free
  operation : e.call = some 3 → ∀ p, k.running = some p → ∀ pre o post,
    e.vector = pre ++ o :: post → ∃ m b m' b', semopLoop pre (k.enter e p) false = some (m, b) ∧
      semopStep o m b = some (m', b') ∧ Sched.Operates o p m.abs m'.abs
  caller : e.call = some 3 → ∀ p, k.running = some p →
    ∃ m b, semopLoop e.vector (k.enter e p) false = some (m, b) ∧
      (∀ s, k'.abs.procs (some s) = m.abs.procs (some s)) ∧
      ((∃ s, p ∈ m.abs.procs (some s)) → k'.abs.procs none = (m.abs.procs none).tail) ∧
      ((∀ s, p ∉ m.abs.procs (some s)) → k'.abs.procs none = m.abs.procs none)

theorem Kept.tracked (h : k.Kept L U) (hU : ∀ s ∈ U, ¬ L.Reserved s) (hp : k.Proper L U e)
    (hrun : Kernel.entry L e k = some k') : Tracked L k e k' where
  other hcall s hs := by
    rw [(h.entry_eq hp.toOrderly hrun).2]
    exact Sched.culled_step (h.wf.toStable.except (R := U)) hs hcall
      (h.wf.expects h.rep.cpu_eq (enabled_of_entry hrun))
  operation hcall _ hr _ _ _ hops := by
    obtain ⟨m, b, m', b', hloop, hstep, hop, -⟩ := h.repeated.operation (hp.repeats h) hr hcall hops
    exact ⟨m, b, m', b', hloop, hstep, hop⟩
  caller hcall _ hr := h.repeated.caller hU (hp.repeats h) hr hcall hrun

-- A process that waits is back on readyQueue when the last of its semaphores lets
-- it go, and until then it keeps its places.
theorem proper_run_tracked (hU : ∀ s ∈ U, ¬ L.Reserved s ∧ 0 ≤ k.sem s)
    (hmain : main L p1 currentTime k = some k₁)
    (hes : Runs.Along (Kernel.entry L) (Proper L U) es k₁)
    (hrun : Kernel.run L es k₁ = some k₂) :
    (∀ p ∉ k₂.abs.free, p ∈ k₂.abs.procs none ↔ ∀ s, p ∉ k₂.abs.procs (some s)) ∧
      (∀ x, (k₂.abs.procs x).Nodup) ∧
      ∀ e k₃, Proper L U k₂ e → Kernel.entry L e k₂ = some k₃ → Tracked L k₂ e k₃ := by
  have hk := (main_kept hU hmain).run (fun s hs => (hU s hs).1) hes hrun
  exact ⟨fun p hp => hk.placed.ready_iff hk.wf.tidy.neat hp, hk.wf.distinct,
    fun e k₃ he hent => hk.tracked (fun s hs => (hU s hs).1) he hent⟩

section Sample

open Sample

-- Three processes use up the descriptors, and a fourth waits behind the first one on
-- a semaphore that has one. A fifth lets the first one go from all its semaphores.
def full : List Event :=
  [fork, fork, fork, fork, locked [1, 2, 3, 4, 5, 6, 7, 8, 9],
    locked [11, 12, 13, 14, 15, 16, 17, 18, 19], locked [21, 22], locked [1],
    sys3 [⟨UNLOCK, 9⟩, ⟨UNLOCK, 1⟩, ⟨UNLOCK, 8⟩, ⟨UNLOCK, 2⟩],
    sys3 [⟨UNLOCK, 3⟩, ⟨UNLOCK, 4⟩, ⟨UNLOCK, 5⟩, ⟨UNLOCK, 7⟩, ⟨UNLOCK, 6⟩]]

theorem exists_full : ∃ k₁ k₂, main layout state 0 cold = some k₁ ∧
    Runs.Along (Kernel.entry layout) (Proper layout layout.user) full k₁ ∧
    Kernel.run layout full k₁ = some k₂ ∧ k₂.abs.procs none = [4, 0] ∧
      k₂.abs.procs (some 1) = [3] ∧ k₂.semdFree_h ≠ none := by
  obtain ⟨k₁, hmain, -, -⟩ := main_sound layout state 0 cold
  have hval : ((main layout state 0 cold).bind fun k => (Kernel.run layout full k).map fun k' =>
      (k'.abs.procs none, k'.abs.procs (some 1), decide (k'.semdFree_h ≠ none),
        decide (Runs.Along (Kernel.entry layout) (fun k e => k.Affords layout e ∧
          Sched.Apart layout e ∧ k.Steady layout.user e) full k))) =
      some ([4, 0], [3], true, true) := by decide +kernel
  rw [hmain, Option.bind_some] at hval
  obtain ⟨k₂, hrun, heq⟩ := Option.map_eq_some_iff.mp hval
  simp only [Prod.mk.injEq, decide_eq_true_eq] at heq
  obtain ⟨hready, hone, hspare, hes⟩ := heq
  have hkept := main_kept (U := layout.user) (fun s hs => ⟨hs, le_refl 0⟩) hmain
  exact ⟨k₁, k₂, hmain, hkept.proper_along (fun s hs => hs) hes, hrun, hready, hone, hspare⟩

theorem proper_run_placed_sample : ∃ k₁ k₂, main layout state 0 cold = some k₁ ∧
    Kernel.run layout full k₁ = some k₂ ∧ (∀ p ∉ k₂.abs.free, ∃ x, p ∈ k₂.abs.procs x) ∧
      ((k₂.abs.procs (some 1)).length : Int) = max 0 (-k₂.sem 1) := by
  obtain ⟨k₁, k₂, hmain, hes, hrun, -⟩ := exists_full
  obtain ⟨hplaced, hwords, -⟩ := proper_run_placed (U := layout.user)
    (fun s hs => ⟨hs, le_refl 0⟩) hmain hes hrun
  exact ⟨k₁, k₂, hmain, hrun, hplaced, hwords 1 (by decide)⟩

theorem proper_run_tracked_sample : ∃ k₁ k₂, main layout state 0 cold = some k₁ ∧
    Kernel.run layout full k₁ = some k₂ ∧ k₂.abs.procs none = [4, 0] ∧
      k₂.abs.procs (some 1) = [3] ∧
      ∀ p ∉ k₂.abs.free, p ∈ k₂.abs.procs none ↔ ∀ s, p ∉ k₂.abs.procs (some s) := by
  obtain ⟨k₁, k₂, hmain, hes, hrun, hready, hone, -⟩ := exists_full
  exact ⟨k₁, k₂, hmain, hrun, hready, hone, (proper_run_tracked (U := layout.user)
    (fun s hs => ⟨hs, le_refl 0⟩) hmain hes hrun).1⟩

-- The first process waits on 7 and 8, the second on 8. The V on 8 takes the first
-- out of both queues.
theorem place_lost : ∃ k₁ k₂ k₃, main layout state 0 cold = some k₁ ∧
    Kernel.run layout [fork, fork, locked [7, 8], locked [8]] k₁ = some k₂ ∧
    Kernel.entry layout (sys3 [⟨UNLOCK, 8⟩]) k₂ = some k₃ ∧ 0 ∉ k₃.abs.free ∧
    k₂.abs.procs (some 7) = [0] ∧ k₂.abs.procs (some 8) = [0, 1] ∧ k₃.abs.procs (some 7) = [] := by
  obtain ⟨k₁, hmain, -, -⟩ := main_sound layout state 0 cold
  have hval : ((main layout state 0 cold).bind fun k =>
      (Kernel.run layout [fork, fork, locked [7, 8], locked [8]] k).bind fun k =>
        (Kernel.entry layout (sys3 [⟨UNLOCK, 8⟩]) k).map fun k' =>
          (k'.abs.free.contains 0, k.abs.procs (some 7), k.abs.procs (some 8),
            k'.abs.procs (some 7))) = some (false, [0], [0, 1], []) := by decide +kernel
  rw [hmain, Option.bind_some] at hval
  obtain ⟨k₂, hrun, hval⟩ := Option.bind_eq_some_iff.mp hval
  obtain ⟨k₃, hent, heq⟩ := Option.map_eq_some_iff.mp hval
  simp only [Prod.mk.injEq] at heq
  exact ⟨k₁, k₂, k₃, hmain, hrun, hent, by simpa using heq.1, heq.2⟩

theorem mem_queueOf {n : Node} {s : Addr} (h : n ∈ k.queueOf (some s)) :
    ∃ d, n ∈ nodes k.procTable (k.semdTable d).s_link := by
  rw [queueOf] at h
  cases hs : k.getSemaphoreFromActiveList s with
  | none => simp [hs] at h
  | some o =>
      cases o with
      | none => simp [hs] at h
      | some d => exact ⟨d, by simpa [hs] using h⟩

-- Three processes use up the descriptors, and the fourth is on no queue.
theorem process_lost : ∃ k₁ k₂, main layout state 0 cold = some k₁ ∧
    Kernel.run layout [fork, fork, fork, locked [1, 2, 3, 4, 5, 6, 7, 8, 9],
      locked [11, 12, 13, 14, 15, 16, 17, 18, 19], locked [21, 22], locked [23]] k₁ = some k₂ ∧
    3 ∉ k₂.abs.free ∧ ∀ x, 3 ∉ k₂.abs.procs x := by
  obtain ⟨k₁, hmain, -, -⟩ := main_sound layout state 0 cold
  have hval : ((main layout state 0 cold).bind fun k =>
      (Kernel.run layout [fork, fork, fork, locked [1, 2, 3, 4, 5, 6, 7, 8, 9],
        locked [11, 12, 13, 14, 15, 16, 17, 18, 19], locked [21, 22], locked [23]] k).map fun k =>
          (k.abs.free.contains 3, k.abs.procs none, (List.finRange MAXPROC).all fun d =>
            (nodes k.procTable (k.semdTable d).s_link).all fun n => n.1 ≠ 3)) =
      some (false, [], true) := by decide +kernel
  rw [hmain, Option.bind_some] at hval
  obtain ⟨k₂, hrun, heq⟩ := Option.map_eq_some_iff.mp hval
  simp only [Prod.mk.injEq, List.all_eq_true, List.mem_finRange, true_implies,
    decide_eq_true_eq] at heq
  refine ⟨k₁, k₂, hmain, hrun, by simpa using heq.1, fun x hx => ?_⟩
  cases x with
  | none => simp [heq.2.1] at hx
  | some s =>
      obtain ⟨n, hn, hid⟩ := List.mem_map.mp hx
      obtain ⟨d, hd⟩ := mem_queueOf hn
      exact heq.2.2 d n hd hid

end Sample

end Run

end Kernel

end Hoca
