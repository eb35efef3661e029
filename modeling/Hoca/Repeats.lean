import Hoca.Conservation
import Hoca.Sched.Repeat

namespace Hoca

variable {L : Layout} {U : Set Addr} {k k' k₁ k₂ : Kernel} {e : Event} {es : List Event}
  {p : ProcId} {p1 : State} {currentTime : Int}

namespace Kernel

-- Nobody is lost, and the words of some semaphores count their waiters.
structure Kept (L : Layout) (U : Set Addr) (k : Kernel) : Prop extends Sound L k where
  placed : k.abs.Placed none
  balanced : ∀ s ∈ U, k.abs.Balanced s

theorem main_kept (hU : ∀ s ∈ U, ¬ L.Reserved s ∧ 0 ≤ k.sem s)
    (hmain : main L p1 currentTime k = some k') : k'.Kept L U :=
  have ht := main_tended hmain
  ⟨ht.toSound, ht.placed, main_balanced hU hmain⟩

-- What holds between the entries of a run in which a process may be queued more
-- than once on a semaphore of `U`.
structure Repeated (L : Layout) (U : Set Addr) (k : Kernel) : Prop where
  rep : Rep k k.abs
  wf : k.abs.WfExcept L U
  placed : k.abs.Placed none
  balanced : ∀ s ∈ U, k.abs.Balanced s

-- The vector of the entry is of P and V on the semaphores of `U`, which stay within
-- the range of an int, and undoes none of the P that its caller has to wait for.
@[mk_iff]
structure Steady (U : Set Addr) (k : Kernel) (e : Event) : Prop where
  op : e.call = some 3 → ∀ o ∈ e.vector, o.op = LOCK ∨ o.op = UNLOCK
  sem : e.call = some 3 → ∀ o ∈ e.vector, o.sem ∈ U
  ranged : k.WordsFit U e
  stays : e.call = some 3 → Stays k.sem e.vector

instance [DecidablePred (· ∈ U)] (k : Kernel) (e : Event) : Decidable (Steady U k e) :=
  decidable_of_iff' _ (steady_iff U k e)

-- The entry stays within the tables and takes nobody out of a queue the wrong way.
structure Repeats (L : Layout) (U : Set Addr) (k : Kernel) (e : Event) : Prop
    extends Steady U k e where
  admits : k.abs.Admits L e
  sheds : k.abs.Sheds e

theorem Repeats.separate (hp : k.Repeats L U e) (hU : ∀ s ∈ U, ¬ L.Reserved s)
    (hcall : e.call = some 3) : Sched.SeparateExcept L U e.vector := by
  refine ⟨fun o ho => hU o.sem (hp.sem hcall o ho), fun s hs => ?_⟩
  rw [List.count_eq_zero_of_not_mem fun hm => ?_]
  · exact Nat.zero_le 1
  · obtain ⟨o, ho, rfl⟩ := List.mem_map.mp hm
    have hou := hp.sem hcall o (List.mem_of_mem_filter ho)
    exact hU o.sem hou (hs o.sem hou rfl)

theorem Repeats.apart (hp : k.Repeats L U e) (hU : ∀ s ∈ U, ¬ L.Reserved s) :
    Sched.ApartExcept L U e :=
  ⟨fun hc => (hp.separate hU hc).1, fun hc => (hp.separate hU hc).2⟩

theorem Kept.repeated (h : k.Kept L U) : k.Repeated L U :=
  ⟨h.rep, h.wf.except, h.placed, h.balanced⟩

theorem Repeated.running_eq (h : k.Repeated L U) : k.running = k.abs.running :=
  h.rep.kernel_running

theorem Repeated.keeps (h : k.Repeated L U) (hp : k.Repeats L U e) (hr : k.abs.running = some p)
    (hcall : e.call = some 3) : (k.abs.enter e p).Keeps p e.vector := by
  refine (Sched.keeps_iff_stays (v := k.abs.enter e p) ?_ ?_ (hp.op hcall) (hp.sem hcall)
    (hp.ranged hcall)).mpr (hp.stays hcall)
  · exact h.wf.toStableExcept.running_off hr
  · exact fun o ho => h.balanced o.sem (hp.sem hcall o ho)

theorem Repeated.room (h : k.Repeated L U) {s : Addr} (hs : s ∈ U) : k.abs.Roomy s := by
  have hlen := (h.rep.queued.linked.nodup (some s)).length_le_card
  refine (h.balanced s hs).room (hlen.trans ?_)
  simp only [Node, Fintype.card_prod, Fintype.card_fin]
  decide

theorem Repeated.balanced_step (h : k.Repeated L U) (hU : ∀ s ∈ U, ¬ L.Reserved s)
    (hp : k.Repeats L U e) (hex : k.abs.Expects e) {s : Addr} (hs : s ∈ U) :
    (k.abs.step L e).Balanced s := by
  by_cases hcall : e.call = some 3
  · obtain ⟨p, hr⟩ := hex.running (Or.inl (Sched.call_some hcall).1)
    have hsame := Sched.same_step_vector (L := L) hr hcall
    have hvec := Sched.Balanced.vectored (v := k.abs.enter e p) (h.balanced s hs) hs
      (fun o ho _ => hp.op hcall o ho) (hp.ranged hcall) p
    exact hvec.congr (by rw [hsame.sem]) (by rw [hsame.queue])
  · exact (h.balanced s hs).step h.wf.toStableExcept (hU s hs) hcall hex (h.room hs)
      (hp.sheds.endsOnce h.wf.toStableExcept s)

theorem Repeated.exists_entry (h : k.Repeated L U) (hU : ∀ s ∈ U, ¬ L.Reserved s)
    (hp : k.Repeats L U e) (hans : k.abs.Answers L e) (hen : k.Enabled e = true) :
    ∃ k', Kernel.entry L e k = some k' ∧ k'.abs = k.abs.step L e ∧ k'.Repeated L U := by
  obtain ⟨k', hstep, hrep⟩ := step_spec h.rep h.wf e hen hp.admits hp.sheds hans
  have hex := h.wf.expects h.rep.cpu_eq hen
  have hwf := h.wf.step hp.admits (hp.apart hU)
  have habs := hrep.abs_eq hwf.rooted
  have hm : Sched.Moves L True (fun v p ops => Sched.SeparateExcept L U ops ∧ v.Keeps p ops)
      k.abs (k.abs.step L e) :=
    Sched.moves_step h.wf.pclock (fun _ => trivial) fun p hr hc =>
      ⟨hp.separate hU hc, h.keeps hp hr hc⟩
  have hplaced := hm.invariantExcept (fun _ _ _ hv => hv.1)
    (fun v v' hv hi => hi.move hv fun _ _ _ hV => hV.2) h.wf.toStableExcept h.placed
  refine ⟨k', by rw [Kernel.entry, if_pos hen, hstep], habs, habs ▸ hrep, habs ▸ hwf,
    habs ▸ hplaced, fun s hs => ?_⟩
  rw [habs]
  exact h.balanced_step hU hp hex hs

theorem Repeated.entry (h : k.Repeated L U) (hU : ∀ s ∈ U, ¬ L.Reserved s)
    (hp : k.Repeats L U e) (hrun : Kernel.entry L e k = some k') :
    k'.abs = k.abs.step L e ∧ k'.Repeated L U := by
  obtain ⟨k₁, hrun₁, hk₁⟩ := h.exists_entry hU hp
    (answers_of_step h.rep (step_of_entry hrun)) (enabled_of_entry hrun)
  rw [hrun] at hrun₁
  cases hrun₁
  exact hk₁

theorem Repeated.run (h : k.Repeated L U) (hU : ∀ s ∈ U, ¬ L.Reserved s)
    (hp : Runs.Along (Kernel.entry L) (Repeats L U) es k) (hrun : Kernel.run L es k = some k') :
    k'.Repeated L U :=
  Runs.run_invariant (fun _ _ _ hk hp hr => (hk.entry hU hp hr).2) h hp hrun

theorem Repeated.repeats_along (h : k.Repeated L U) (hU : ∀ s ∈ U, ¬ L.Reserved s)
    (hes : Runs.Along (Kernel.entry L) (fun k e => k.Affords L e ∧ k.Steady U e) es k) :
    Runs.Along (Kernel.entry L) (Repeats L U) es k :=
  have hall : ∀ (k : Kernel) e, k.Repeated L U → k.Affords L e ∧ k.Steady U e → k.Repeats L U e :=
    fun _ _ hk hp => ⟨hp.2, hk.rep.admits hp.1, hp.1.sheds⟩
  Runs.along_of_invariant (fun k e _ hk hp hr => (hk.entry hU (hall k e hk hp) hr).2) hall h hes

-- The semaphores of the devices, as long as they have room.
theorem Repeated.manned_run (h : k.Repeated L U) (hU : ∀ s ∈ U, ¬ L.Reserved s)
    (hp : Runs.Along (Kernel.entry L) (Repeats L U) es k)
    (hfit : Runs.Along (Kernel.entry L) (DevicesFit L) es k) (hm : k.abs.Manned L)
    (hrun : Kernel.run L es k = some k') : k'.abs.Manned L := by
  refine (Runs.run_invariant (I := fun k => k.Repeated L U ∧ k.abs.Manned L)
    (fun k e k' hk hp hr => ?_) ⟨h, hm⟩ (hp.and hfit) hrun).2
  obtain ⟨habs, hk'⟩ := hk.1.entry hU hp.1 hr
  refine ⟨hk', ?_⟩
  rw [habs]
  exact hk.2.step hk.1.wf.toStableExcept (fun hc o ho => hU o.sem (hp.1.sem hc o ho)) hp.2

-- One operation of a vector, from the kernel that the operations before it leave.
theorem Repeated.operation (h : k.Repeated L U) (hp : k.Repeats L U e) (hr : k.running = some p)
    (hcall : e.call = some 3) {pre post : List Vpop} {o : Vpop} (hops : e.vector = pre ++ o :: post) :
    ∃ m b m' b', semopLoop pre (k.enter e p) false = some (m, b) ∧
      semopStep o m b = some (m', b') ∧ Sched.Operates o p m.abs m'.abs ∧
      ∀ s ∈ U, ((m'.abs.procs (some s)).length : Int) = max 0 (-m'.sem s) := by
  have hr' : (k.abs.enter e p).running = some p := h.running_eq.symm.trans hr
  have hfit := hp.admits.vector p (h.running_eq ▸ hr) hcall
  rw [hops, Sched.allFit_append] at hfit
  obtain ⟨m, hloop, hcore, -⟩ := semopLoop_spec (h.rep.enter e p).toCore hr' false hfit.1
  obtain ⟨m', hstep, hcore', -⟩ := semopStep_spec hcore (Sched.running_semopLoop hr' pre false) o
    (Sched.semopLoop pre p (k.abs.enter e p) false).2 hfit.2.1
  have hop : ∀ o' ∈ pre ++ [o], o'.op = LOCK ∨ o'.op = UNLOCK := by
    intro o' ho'
    refine hp.op hcall o' (hops ▸ ?_)
    rw [List.mem_append, List.mem_singleton] at ho'
    rcases ho' with ho' | rfl
    · exact List.mem_append_left _ ho'
    · simp
  have hrange : Ranged U (k.abs.enter e p).sem ((pre ++ [o]) ++ post) := by
    rw [List.append_assoc, List.singleton_append, ← hops]
    exact hp.ranged hcall
  have hbal : ∀ s ∈ U, (Sched.semopLoop pre p (k.abs.enter e p) false).1.Balanced s := fun s hs =>
    Sched.Balanced.semopLoop (v := k.abs.enter e p) (h.balanced s hs) hs
      (fun o' ho' _ => hop o' (List.mem_append_left _ ho')) hrange.left.left p false
  have hmem : o.sem ∈ U := hp.sem hcall o (hops ▸ by simp)
  refine ⟨m, _, m', _, hloop, hstep, ?_, fun s hs => ?_⟩
  · exact (Sched.operates_semopStep (hbal o.sem hmem) p _).congr (funext hcore.procs_eq)
      (funext hcore'.procs_eq) hcore.sem_eq
  · have hstepped := Sched.Balanced.semopLoop (v := k.abs.enter e p) (h.balanced s hs) hs
      (fun o' ho' _ => hop o' ho') hrange.left p false
    rw [Sched.semopLoop_append] at hstepped
    rw [hcore'.procs_eq, Sched.length_procs, hcore'.sem_eq]
    exact hstepped

-- Who is made to wait leaves readyQueue when the vector is done.
theorem Repeated.caller (h : k.Repeated L U) (hU : ∀ s ∈ U, ¬ L.Reserved s) (hp : k.Repeats L U e)
    (hr : k.running = some p) (hcall : e.call = some 3) (hrun : Kernel.entry L e k = some k') :
    ∃ m b, semopLoop e.vector (k.enter e p) false = some (m, b) ∧
      (∀ s, k'.abs.procs (some s) = m.abs.procs (some s)) ∧
      ((∃ s, p ∈ m.abs.procs (some s)) → k'.abs.procs none = (m.abs.procs none).tail) ∧
      ((∀ s, p ∉ m.abs.procs (some s)) → k'.abs.procs none = m.abs.procs none) := by
  have hr₀ : k.abs.running = some p := h.running_eq.symm.trans hr
  have hr' : (k.abs.enter e p).running = some p := hr₀
  have hkeep := h.keeps hp hr₀ hcall
  have hoff : ∀ s, p ∉ (k.abs.enter e p).procs (some s) := h.wf.toStableExcept.running_off hr₀
  obtain ⟨m, hloop, hcore, -⟩ := semopLoop_spec (h.rep.enter e p).toCore hr' false
    (hp.admits.vector p hr₀ hcall)
  have hprocs : k'.abs.procs = ((k.abs.enter e p).vectored e.vector p).procs := by
    rw [(h.entry hU hp hrun).1]
    funext x
    exact (Sched.same_step_vector hr₀ hcall).procs x
  refine ⟨m, _, hloop, fun s => ?_, fun ⟨s, hs⟩ => ?_, fun hno => ?_⟩
  all_goals rw [hprocs]
  · rw [hcore.procs_eq, Sched.vectored_procs]
  · rw [hcore.procs_eq] at hs ⊢
    unfold Sched.vectored
    dsimp only
    split
    · rw [Sched.procs_removeReady, if_pos rfl]
    · next hflag => exact absurd hs (Sched.off_of_flag hoff (by simpa using hflag) s)
  · rw [hcore.procs_eq]
    unfold Sched.vectored
    dsimp only
    split
    · next hflag =>
      obtain ⟨s, hs⟩ := hkeep hflag
      exact absurd hs (hcore.procs_eq (some s) ▸ hno s)
    · rfl

theorem Repeated.killed (h : k.Repeated L U) (hU : ∀ s ∈ U, ¬ L.Reserved s) (hp : k.Repeats L U e)
    (hcall : e.call ≠ some 3) (hrun : Kernel.entry L e k = some k') {s : Addr} (hs : s ∈ U) :
    k'.abs.procs (some s) = (k.abs.procs (some s)).filter (fun p => p ∉ k'.abs.free) ∧
      k'.sem s = k.sem s + (k.abs.procs (some s)).countP fun p => p ∈ k'.abs.free := by
  have hex := h.wf.expects h.rep.cpu_eq (enabled_of_entry hrun)
  have habs := (h.entry hU hp hrun).1
  have hw := h.wf.toStableExcept
  have hsem : k'.sem s = (k.abs.step L e).sem s := congrArg (fun v => v.sem s) habs
  rw [hsem, habs]
  exact ⟨Sched.culled_step hw (hU s hs) hcall hex,
    Sched.sem_step hw (hU s hs) hcall hex (h.room hs) (hp.sheds.endsOnce hw s)⟩

-- What an entry does to the entries on the queues of the given semaphores.
structure Counts (L : Layout) (U : Set Addr) (k : Kernel) (e : Event) (k' : Kernel) : Prop where
  killed : e.call ≠ some 3 → ∀ s ∈ U,
    k'.abs.procs (some s) = (k.abs.procs (some s)).filter (fun p => p ∉ k'.abs.free) ∧
      k'.sem s = k.sem s + (k.abs.procs (some s)).countP fun p => p ∈ k'.abs.free
  operation : e.call = some 3 → ∀ p, k.running = some p → ∀ pre o post,
    e.vector = pre ++ o :: post → ∃ m b m' b', semopLoop pre (k.enter e p) false = some (m, b) ∧
      semopStep o m b = some (m', b') ∧ Sched.Operates o p m.abs m'.abs ∧
      ∀ s ∈ U, ((m'.abs.procs (some s)).length : Int) = max 0 (-m'.sem s)
  caller : e.call = some 3 → ∀ p, k.running = some p →
    ∃ m b, semopLoop e.vector (k.enter e p) false = some (m, b) ∧
      (∀ s, k'.abs.procs (some s) = m.abs.procs (some s)) ∧
      ((∃ s, p ∈ m.abs.procs (some s)) → k'.abs.procs none = (m.abs.procs none).tail) ∧
      ((∀ s, p ∉ m.abs.procs (some s)) → k'.abs.procs none = m.abs.procs none)

theorem Repeated.counts (h : k.Repeated L U) (hU : ∀ s ∈ U, ¬ L.Reserved s) (hp : k.Repeats L U e)
    (hrun : Kernel.entry L e k = some k') : Counts L U k e k' where
  killed hcall _ hs := h.killed hU hp hcall hrun hs
  operation hcall _ hr _ _ _ hops := h.operation hp hr hcall hops
  caller hcall _ hr := h.caller hU hp hr hcall hrun

-- A process may have several places on one queue, and each V takes one of them.
-- It is ready when it has none left, and a kill counts the places that it frees.
theorem repeats_run_counted (hU : ∀ s ∈ U, ¬ L.Reserved s ∧ 0 ≤ k.sem s)
    (hmain : main L p1 currentTime k = some k₁)
    (hes : Runs.Along (Kernel.entry L) (Repeats L U) es k₁)
    (hrun : Kernel.run L es k₁ = some k₂) :
    (∀ s ∈ U, ((k₂.abs.procs (some s)).length : Int) = max 0 (-k₂.sem s)) ∧
      (∀ p ∉ k₂.abs.free, p ∈ k₂.abs.procs none ↔ ∀ s, p ∉ k₂.abs.procs (some s)) ∧
      (∀ x, ∀ p ∈ k₂.abs.procs x, p ∉ k₂.abs.free) ∧
      ∀ e, Repeats L U k₂ e →
        (Runs.Along (Kernel.entry L) (DevicesFit L) es k₁ → k₂.Enabled e = true →
          ∃ k₃, Kernel.entry L e k₂ = some k₃) ∧
        ∀ k₃, Kernel.entry L e k₂ = some k₃ → Counts L U k₂ e k₃ := by
  have hU' : ∀ s ∈ U, ¬ L.Reserved s := fun s hs => (hU s hs).1
  have hk₁ := (main_kept hU hmain).repeated
  have hk := hk₁.run hU' hes hrun
  refine ⟨fun s hs => ?_, fun p hp => hk.placed.ready_iff hk.wf.neat hp,
    fun x p hp => hk.wf.live x p hp, fun e he => ⟨fun hfit hen => ?_, fun k₃ hent => ?_⟩⟩
  · rw [Sched.length_procs]
    exact hk.balanced s hs
  · have hman := hk₁.manned_run hU' hes hfit (main_manned hmain) hrun
    obtain ⟨k₃, hent, -⟩ := hk.exists_entry hU' he (hman.answers e) hen
    exact ⟨k₃, hent⟩
  · exact hk.counts hU' he hent

section Sample

open Sample

-- Two of the entries on the queue of 7 are the first process's, and each V takes one.
def twice : List Event :=
  [fork, fork, fork, locked [7, 7], locked [7], sys3 [⟨UNLOCK, 7⟩], clock, locked [8, 7],
    sys3 [⟨UNLOCK, 7⟩]]

theorem repeats_run_counted_sample : ∃ k₁ k₂, main layout state 0 cold = some k₁ ∧
    Kernel.run layout twice k₁ = some k₂ ∧ k₂.abs.procs (some 7) = [1, 3] ∧
      k₂.abs.procs none = [2, 0] ∧
      ((k₂.abs.procs (some 7)).length : Int) = max 0 (-k₂.sem 7) := by
  obtain ⟨k₁, hmain, -, -⟩ := main_sound layout state 0 cold
  have hval : ((main layout state 0 cold).bind fun k => (Kernel.run layout twice k).map fun k' =>
      (k'.abs.procs (some 7), k'.abs.procs none,
        decide (Runs.Along (Kernel.entry layout)
          (fun k e => k.Affords layout e ∧ k.Steady layout.user e) twice k))) =
      some ([1, 3], [2, 0], true) := by decide +kernel
  rw [hmain, Option.bind_some] at hval
  obtain ⟨k₂, hrun, heq⟩ := Option.map_eq_some_iff.mp hval
  simp only [Prod.mk.injEq, decide_eq_true_eq] at heq
  have hU : ∀ s ∈ layout.user, ¬ layout.Reserved s ∧ 0 ≤ cold.sem s := fun s hs => ⟨hs, le_refl 0⟩
  have hes := (main_kept hU hmain).repeated.repeats_along (fun s hs => hs) heq.2.2
  exact ⟨k₁, k₂, hmain, hrun, heq.1, heq.2.1,
    (repeats_run_counted hU hmain hes hrun).1 7 (by decide)⟩

theorem procs_of_semd_none (h : k.semd_h = none) (s : Addr) : k.abs.procs (some s) = [] := by
  have hq : k.queueOf (some s) = [] := by
    rw [queueOf, getSemaphoreFromActiveList, h]
    rfl
  exact congrArg (List.map Prod.fst) hq

-- One V takes both entries of the first process out of the queue, and it is on no
-- queue after that.
theorem entries_lost : ∃ k₁ k₂ k₃, main layout state 0 cold = some k₁ ∧
    Kernel.run layout [fork, locked [7, 7]] k₁ = some k₂ ∧
    Kernel.entry layout (sys3 [⟨UNLOCK, 7⟩]) k₂ = some k₃ ∧ 0 ∉ k₃.abs.free ∧
    k₂.abs.procs (some 7) = [0, 0] ∧ k₃.abs.procs (some 7) = [] ∧ k₃.sem 7 = -1 ∧
    ∀ x, 0 ∉ k₃.abs.procs x := by
  obtain ⟨k₁, hmain, -, -⟩ := main_sound layout state 0 cold
  have hval : ((main layout state 0 cold).bind fun k =>
      (Kernel.run layout [fork, locked [7, 7]] k).bind fun k =>
        (Kernel.entry layout (sys3 [⟨UNLOCK, 7⟩]) k).map fun k' =>
          (k'.abs.free.contains 0, k.abs.procs (some 7), k'.sem 7, k'.abs.procs none,
            k'.semd_h)) = some (false, [0, 0], -1, [1], none) := by decide +kernel
  rw [hmain, Option.bind_some] at hval
  obtain ⟨k₂, hrun, hval⟩ := Option.bind_eq_some_iff.mp hval
  obtain ⟨k₃, hent, heq⟩ := Option.map_eq_some_iff.mp hval
  simp only [Prod.mk.injEq] at heq
  obtain ⟨hfree, htwice, hsem, hready, hnil⟩ := heq
  have hnone : ∀ s, k₃.abs.procs (some s) = [] := fun s => procs_of_semd_none hnil s
  refine ⟨k₁, k₂, k₃, hmain, hrun, hent, by simpa using hfree, htwice, hnone 7, hsem, fun x => ?_⟩
  cases x with
  | none => simp [hready]
  | some s => simp [hnone]

end Sample

end Kernel

end Hoca
