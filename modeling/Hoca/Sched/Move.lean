import Hoca.Sched.Effect

namespace Hoca

namespace Sched

-- What an entry does to the queues, the free list and the semaphores, one move
-- at a time. The parameters say whether a process may be created, and which
-- vectors a kernel may take.
inductive Move (L : Layout) (fork : Prop) (V : Sched → ProcId → List Vpop → Prop) :
    Sched → Sched → Prop
  | quiet {v v' : Sched} (hq : v'.queue = v.queue) (hfree : v'.free = v.free)
      (hparent : v'.parent = v.parent) (hchildren : v'.children = v.children)
      (hsem : v'.sem = v.sem) : Move L fork V v v'
  | create {v : Sched} {p c : ProcId} {rest : List ProcId} (hfork : fork) (hr : v.running = some p)
      (hfree : v.free = c :: rest) : Move L fork V v ((v.newborn p c rest).insertReady c)
  | kill {v : Sched} {p : ProcId} (hr : v.running = some p) : Move L fork V v (v.remains p)
  | vector {v : Sched} {p : ProcId} {ops : List Vpop} (hr : v.running = some p)
      (hV : V v p ops) : Move L fork V v (v.vectored ops p)
  | block {v : Sched} {p : ProcId} {s : Addr} (hr : v.running = some p) (hs : L.Reserved s)
      (hz : v.sem s ≤ 0) : Move L fork V v (v.block s p)
  | take {v : Sched} {d : Device} (hpos : 0 < v.sem (L.device d)) :
      Move L fork V v (v.setSem (L.device d) (v.sem (L.device d) - 1))
  | signal {v : Sched} {s : Addr} (hs : L.Reserved s) (hq : v.queue (some s) ≠ []) :
      Move L fork V v ((v.setSem s (toLong (v.sem s + 1))).wake s)
  | post {v : Sched} {d : Device} (hd : v.sem (L.device d) ≠ -1) :
      Move L fork V v (v.setSem (L.device d) (toLong (v.sem (L.device d) + 1)))
  | requeue {v : Sched} {p : ProcId} (hr : v.running = some p) :
      Move L fork V v (v.removeReady.insertReady p)

variable {L : Layout} {fork : Prop} {V : Sched → ProcId → List Vpop → Prop} {v v' : Sched} {p : ProcId}
  {e : Event} {currentTime : Int} {R : Set Addr}

abbrev Moves (L : Layout) (fork : Prop) (V : Sched → ProcId → List Vpop → Prop) :
    Sched → Sched → Prop :=
  Relation.ReflTransGen (Move L fork V)

-- The vectors leave the kernel's semaphores alone and ask for none twice.
def Separate (L : Layout) (ops : List Vpop) : Prop :=
  (∀ o ∈ ops, ¬ L.Reserved o.sem) ∧ (locks ops).Nodup

-- Of the semaphores of `R` they may ask for one more than once.
def SeparateExcept (L : Layout) (R : Set Addr) (ops : List Vpop) : Prop :=
  (∀ o ∈ ops, ¬ L.Reserved o.sem) ∧ ∀ s, Strict L R (some s) → (locks ops).count s ≤ 1

theorem Separate.except {ops : List Vpop} (h : Separate L ops) : SeparateExcept L R ops :=
  ⟨h.1, fun s _ => List.nodup_iff_count_le_one.mp h.2 s⟩

theorem StableExcept.move (h : v.StableExcept L R)
    (hV : ∀ v p ops, V v p ops → SeparateExcept L R ops) (hm : Move L fork V v v') :
    v'.StableExcept L R := by
  cases hm with
  | quiet hq hfree hparent hchildren hsem => exact h.congr hq hfree hparent hchildren hsem
  | create _ hr hfree =>
      rw [← createproc_cons v hfree]
      exact h.createproc hr
  | kill hr => exact h.remains hr
  | vector hr hv => exact h.vectored hr (hV _ _ _ hv).1 (hV _ _ _ hv).2
  | block hr _ _ => exact h.block hr _
  | take _ => exact h.setDevice ..
  | signal hs hq => exact h.signal _ hq
  | post _ => exact h.setDevice ..
  | requeue hr => exact h.requeue hr

theorem Stable.move (h : v.Stable L) (hV : ∀ v p ops, V v p ops → Separate L ops)
    (hm : Move L fork V v v') : v'.Stable L :=
  (h.except.move (fun v p ops hv => (hV v p ops hv).except) hm).exact

-- What every move preserves, an entry preserves.
theorem Moves.invariantExcept {I : Sched → Prop}
    (hV : ∀ v p ops, V v p ops → SeparateExcept L R ops)
    (hI : ∀ v v', v.StableExcept L R → I v → Move L fork V v v' → I v')
    (h : v.StableExcept L R) (hi : I v) (hm : Moves L fork V v v') : I v' := by
  refine (?_ : v'.StableExcept L R ∧ I v').2
  induction hm with
  | refl => exact ⟨h, hi⟩
  | tail _ hm ih => exact ⟨ih.1.move hV hm, hI _ _ ih.1 ih.2 hm⟩

theorem Moves.invariant {I : Sched → Prop} (hV : ∀ v p ops, V v p ops → Separate L ops)
    (hI : ∀ v v', v.Stable L → I v → Move L fork V v v' → I v') (h : v.Stable L) (hi : I v)
    (hm : Moves L fork V v v') : I v' :=
  hm.invariantExcept (R := ∅) (fun v p ops hv => (hV v p ops hv).except)
    (fun v v' hv => hI v v' hv.exact) h.except hi

theorem moves_quiet (hq : v'.queue = v.queue) (hfree : v'.free = v.free)
    (hparent : v'.parent = v.parent) (hchildren : v'.children = v.children)
    (hsem : v'.sem = v.sem) : Moves L fork V v v' :=
  .single (.quiet hq hfree hparent hchildren hsem)

theorem moves_schedule (v : Sched) (currentTime : Int) : Moves L fork V v (v.schedule L currentTime) :=
  moves_quiet (schedule_queue ..) (schedule_free ..) (schedule_parent ..)
    (schedule_children ..) (schedule_sem ..)

theorem moves_killproc (hr : v.running = some p) (currentTime : Int) :
    Moves L fork V v (v.killproc L currentTime p) :=
  .trans (.single (.kill hr)) (moves_schedule _ currentTime)

theorem Same.moves {off : Option ProcId} (h : Same off v v') : Moves L fork V v v' :=
  moves_quiet h.queue h.free h.parent h.children h.sem

theorem moves_preempt (v : Sched) (tIn : Int) (old : State) :
    Moves L fork V v (v.preempt tIn old) := by
  unfold Sched.preempt
  split
  · exact .refl
  · next p hr => exact .trans (.single (.requeue hr)) (moves_quiet rfl rfl rfl rfl rfl)

theorem moves_tick (v : Sched) : Moves L fork V v (v.tick L) := by
  unfold Sched.tick
  split
  · split
    · exact moves_quiet rfl rfl rfl rfl rfl
    · next hq => exact .trans (.single (.signal (Or.inl rfl) hq)) (moves_quiet rfl rfl rfl rfl rfl)
  · exact .refl

theorem Effect.moves (hfork : e.call = some 1 → fork)
    (hV : ∀ p, v.running = some p → e.call = some 3 → V (v.enter e p) p e.vector)
    (h : Effect L e v v') : Moves L fork V v v' := by
  cases h with
  | idle => exact .refl
  | @create p c rest hr hcall hfree =>
      exact (v.same_enter none e p).moves.trans (.single (.create (hfork hcall) hr hfree))
  | kill hr => exact .single (.kill hr)
  | @vector p hr hcall =>
      exact (v.same_enter none e p).moves.trans (.single (.vector hr (hV p hr hcall)))
  | wait hr hs hz =>
      refine .single (.block hr ?_ hz)
      rcases hs with ⟨-, rfl⟩ | ⟨-, d, -, rfl⟩
      · exact Or.inl rfl
      · exact Or.inr ⟨d, rfl⟩
  | take _ _ _ hpos => exact .single (.take hpos)
  | @deliver d type reg a _ _ hsem ha =>
      have hs : toLong (v.sem (L.device d) + 1) = 0 := by
        rw [hsem]
        rfl
      have hq : v.queue (some (L.device d)) ≠ [] := by
        intro hq
        rw [procs, hq] at ha
        cases ha
      rw [← hs]
      exact (same_saveState v a _).moves.trans (.single (.signal (Or.inr ⟨d, rfl⟩) hq))
  | post _ _ hsem => exact .trans (.single (.post hsem)) (moves_quiet rfl rfl rfl rfl rfl)
  | clock _ =>
      have hclock : Moves L fork V v { v with PSEUDO_CLOCK := v.PSEUDO_CLOCK + QUANTUM } :=
        moves_quiet rfl rfl rfl rfl rfl
      exact hclock.trans ((moves_preempt _ e.tIn e.old).trans (moves_tick _))

theorem moves_step (hclock : v.level L.PSEUDO_CLOCK_SEMAPHORE = 0) (hfork : e.call = some 1 → fork)
    (hV : ∀ p, v.running = some p → e.call = some 3 → V (v.enter e p) p e.vector) :
    Moves L fork V v (v.step L e) := by
  obtain ⟨w, hw, hs⟩ := step_yields (e := e) hclock
  exact (hw.moves hfork hV).trans hs.moves

end Sched

end Hoca
