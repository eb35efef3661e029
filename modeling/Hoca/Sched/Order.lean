import Hoca.Fifo
import Hoca.Sched.Vector

namespace Hoca

open Forest Fifo

namespace Sched

variable {L : Layout} {v v' w : Sched} {p : ProcId} {e : Event} {ops : List Vpop} {b : Bool}

-- How the queues pass through an entry: nobody overtakes, whoever comes goes to
-- the end, and only a head leaves without being killed. On readyQueue the head
-- may first go to the end.
structure InOrder (v w : Sched) : Prop where
  blocked : ∀ s, Advances (v.procs (some s)) (w.procs (some s))
  ready : ∃ mid, (mid = v.procs none ∨ mid = (v.procs none).rotate 1) ∧ Advances mid (w.procs none)
  left : ∀ x, ∀ a ∈ v.procs x, a ∉ w.procs x → a ∈ w.free ∨ (v.procs x).head? = some a

theorem InOrder.same {off : Option ProcId} (h : InOrder v w) (hs : Same off w v') :
    InOrder v v' where
  blocked s := by
    rw [hs.procs]
    exact h.blocked s
  ready := by
    rw [hs.procs]
    exact h.ready
  left x a ha hn := by
    rw [hs.procs] at hn
    rw [hs.free]
    exact h.left x a ha hn

theorem Same.inOrder {u : Sched} {off : Option ProcId} (hs : Same off v u) (h : InOrder u w) :
    InOrder v w where
  blocked s := hs.procs (some s) ▸ h.blocked s
  ready := hs.procs none ▸ h.ready
  left x := hs.procs x ▸ h.left x

theorem InOrder.refl (v : Sched) : InOrder v v :=
  ⟨fun _ => Advances.refl _, ⟨_, Or.inl rfl, Advances.refl _⟩, fun _ _ ha hn => absurd ha hn⟩

section Wake

-- A V makes at most one process ready, and one that is not.
theorem woken_wake (v : Sched) (s : Addr) : ∃ woken, (v.wake s).procs none = v.procs none ++ woken ∧
    ∀ a ∈ woken, a ∉ v.procs none := by
  rcases v.wake_cases s with ⟨-, hw⟩ | ⟨a, rest, -, -, hw⟩ | ⟨a, rest, -, hoff, hw⟩
  · exact ⟨[], by rw [hw, List.append_nil], by simp⟩
  · refine ⟨[], ?_, by simp⟩
    rw [hw, procs_removeBlocked, if_neg (by simp), List.append_nil]
  · have hnone := hoff none
    rw [procs_removeBlocked, if_neg (by simp)] at hnone
    refine ⟨[a], ?_, by simpa using hnone⟩
    rw [hw, procs_insertReady, if_pos rfl, procs_removeBlocked, if_neg (by simp)]

theorem left_tail {l : List ProcId} {a : ProcId} (ha : a ∈ l) (hn : a ∉ l.tail) :
    l.head? = some a := by
  cases l with
  | nil => cases ha
  | cons c rest => rw [List.head?_cons, (List.mem_cons.mp ha).resolve_right hn]

theorem advances_wake (v : Sched) (s : Addr) :
    Advances (v.procs none) ((v.wake s).procs none) := by
  obtain ⟨woken, hw, hnew⟩ := v.woken_wake s
  exact ⟨_, woken, hw, List.Sublist.refl _, hnew⟩

theorem inOrder_wake (v : Sched) (s : Addr) : InOrder v (v.wake s) := by
  refine ⟨fun s' => ?_, ⟨_, Or.inl rfl, v.advances_wake s⟩, fun x a ha hn => Or.inr ?_⟩
  · rw [procs_wake_some]
    split
    · next hs =>
      rw [hs]
      exact Advances.of_sublist (List.tail_sublist _)
    · exact Advances.refl _
  · cases x with
    | none =>
        obtain ⟨woken, hw, -⟩ := v.woken_wake s
        rw [hw] at hn
        exact absurd (List.mem_append_left _ ha) hn
    | some s' =>
        rw [procs_wake_some] at hn
        split at hn
        · next hs =>
          rw [hs] at ha ⊢
          exact left_tail ha hn
        · exact absurd ha hn

end Wake

section Vector

-- An operation only adds to readyQueue.
theorem ready_append_semopStep (v : Sched) (o : Vpop) (p : ProcId) (b : Bool) :
    ∃ woken, (v.semopStep o p b).1.procs none = v.procs none ++ woken ∧
      ∀ a ∈ woken, a ∉ v.procs none := by
  have hnone : ∃ woken, v.procs none = v.procs none ++ woken ∧ ∀ a ∈ woken, a ∉ v.procs none :=
    ⟨[], by rw [List.append_nil], by simp⟩
  rcases v.semopStep_cases o p b with ⟨-, -, hv⟩ | ⟨-, -, hv⟩ | ⟨-, -, hv⟩
  · rw [hv, procs_insertBlocked, if_neg (by simp)]
    exact hnone
  · rw [hv]
    exact woken_wake (v.setSem o.sem (toLong (v.sem o.sem + o.op))) o.sem
  · rw [hv]
    exact hnone

theorem ready_append_semopLoop (ops : List Vpop) (p : ProcId) (v : Sched) (b : Bool) :
    ∃ woken, (semopLoop ops p v b).1.procs none = v.procs none ++ woken ∧
      ∀ a ∈ woken, a ∉ v.procs none := by
  induction ops generalizing v b with
  | nil => exact ⟨[], by rw [List.append_nil]; rfl, by simp⟩
  | cons o ops ih =>
      obtain ⟨first, hfirst, hnew⟩ := v.ready_append_semopStep o p b
      obtain ⟨rest, hrest, hnew'⟩ := ih (v.semopStep o p b).1 (v.semopStep o p b).2
      refine ⟨first ++ rest, ?_, fun a ha => ?_⟩
      · rw [semopLoop, hrest, hfirst, List.append_assoc]
      · rcases List.mem_append.mp ha with ha | ha
        · exact hnew a ha
        · have hn := hnew' a ha
          rw [hfirst, List.mem_append, not_or] at hn
          exact hn.1

-- What one operation does to the queue of its semaphore.
theorem procs_semopStep_self (v : Sched) (o : Vpop) (p : ProcId) (b : Bool) :
    (v.semopStep o p b).1.procs (some o.sem) = v.procs (some o.sem) ∨
      (v.semopStep o p b).1.procs (some o.sem) = v.procs (some o.sem) ++ [p] ∨
      (v.semopStep o p b).1.procs (some o.sem) = (v.procs (some o.sem)).tail := by
  rcases v.semopStep_cases o p b with ⟨-, -, hv⟩ | ⟨-, -, hv⟩ | ⟨-, -, hv⟩
  · rw [hv, procs_insertBlocked, if_pos rfl]
    exact Or.inr (Or.inl rfl)
  · rw [hv, procs_wake_some, if_pos rfl]
    exact Or.inr (Or.inr rfl)
  · exact Or.inl (by rw [hv]; rfl)

-- A vector operates at most once on a semaphore.
theorem procs_semopLoop (hops : (ops.map Vpop.sem).Nodup) (p : ProcId) (v : Sched) (b : Bool)
    (s : Addr) :
    (semopLoop ops p v b).1.procs (some s) = v.procs (some s) ∨
      (semopLoop ops p v b).1.procs (some s) = v.procs (some s) ++ [p] ∨
      (semopLoop ops p v b).1.procs (some s) = (v.procs (some s)).tail := by
  induction ops generalizing v b with
  | nil => exact Or.inl rfl
  | cons o ops ih =>
      rw [List.map_cons, List.nodup_cons] at hops
      rw [semopLoop]
      by_cases hs : s = o.sem
      · subst hs
        have hrest := semopLoop_frame ops p (v.semopStep o p b).1 (v.semopStep o p b).2
          (s := o.sem) fun o' ho' heq => hops.1 (heq ▸ List.mem_map_of_mem ho')
        rw [hrest.2]
        exact v.procs_semopStep_self o p b
      · rw [← (v.semopStep_frame o p b hs).2]
        exact ih hops.2 _ _

-- Only the caller leaves readyQueue by its vector.
theorem left_vectored (hr : v.running = some p) {a : ProcId} (ha : a ∈ v.procs none)
    (hn : a ∉ (v.vectored ops p).procs none) : v.running = some a := by
  obtain ⟨woken, hw, -⟩ := ready_append_semopLoop ops p v false
  have hhead : (v.procs none).head? = some p := by
    rw [procs, List.head?_map]
    exact hr
  obtain ⟨rest, hready⟩ := List.head?_eq_some_iff.mp hhead
  rw [hready] at ha
  rw [hr, (List.mem_cons.mp ha).resolve_right fun hm => hn ?_]
  unfold vectored
  dsimp only
  split
  · rw [procs_removeReady, if_pos rfl, hw, hready]
    exact List.mem_append_left _ hm
  · rw [hw, hready]
    exact List.mem_append_left _ (List.mem_cons_of_mem p hm)

theorem inOrder_vectored (hops : (ops.map Vpop.sem).Nodup) (hr : v.running = some p)
    (hoff : ∀ s, p ∉ v.procs (some s)) : InOrder v (v.vectored ops p) := by
  obtain ⟨woken, hw, hnew⟩ := ready_append_semopLoop ops p v false
  have hhead : (v.procs none).head? = some p := by
    rw [procs, List.head?_map]
    exact hr
  obtain ⟨rest, hready⟩ := List.head?_eq_some_iff.mp hhead
  refine ⟨fun s => ?_, ⟨_, Or.inl rfl, ?_⟩, fun x a ha hn => Or.inr ?_⟩
  · rw [vectored_procs]
    rcases procs_semopLoop hops p v false s with hq | hq | hq
    · rw [hq]
      exact Advances.refl _
    · rw [hq]
      exact advances_snoc (hoff s)
    · rw [hq]
      exact Advances.of_sublist (List.tail_sublist _)
  · unfold vectored
    dsimp only
    split
    · rw [procs_removeReady, if_pos rfl, hw, hready]
      exact ⟨rest, woken, rfl, List.sublist_cons_self .., hready ▸ hnew⟩
    · rw [hw]
      exact ⟨_, woken, rfl, List.Sublist.refl _, hnew⟩
  · cases x with
    | none => rw [hhead, ← hr, left_vectored hr ha hn]
    | some s =>
        rw [vectored_procs] at hn
        rcases procs_semopLoop hops p v false s with hq | hq | hq
        · rw [hq] at hn
          exact absurd ha hn
        · rw [hq] at hn
          exact absurd (List.mem_append_left _ ha) hn
        · rw [hq] at hn
          exact left_tail ha hn

end Vector

theorem inOrder_create {c : ProcId} {rest : List ProcId} (hc : c ∉ v.procs none) :
    InOrder v ((v.newborn p c rest).insertReady c) := by
  have hsome : ∀ s, ((v.newborn p c rest).insertReady c).procs (some s) = v.procs (some s) := by
    intro s
    rw [procs_insertReady, if_neg (by simp)]
    rfl
  have hnone : ((v.newborn p c rest).insertReady c).procs none = v.procs none ++ [c] := by
    rw [procs_insertReady, if_pos rfl]
    rfl
  refine ⟨fun s => ?_, ⟨_, Or.inl rfl, ?_⟩, fun x a ha hn => absurd ?_ hn⟩
  · rw [hsome]
    exact Advances.refl _
  · rw [hnone]
    exact advances_snoc hc
  · cases x with
    | none =>
        rw [hnone]
        exact List.mem_append_left _ ha
    | some s =>
        rw [hsome]
        exact ha

theorem inOrder_remains (v : Sched) (p : ProcId) : InOrder v (v.remains p) := by
  have hsub : ∀ x, (if x = none then (v.procs none).tail else v.procs x).Sublist (v.procs x) := by
    intro x
    split
    · next hx => exact hx ▸ List.tail_sublist _
    · exact List.Sublist.refl _
  refine ⟨fun s => ?_, ⟨_, Or.inl rfl, ?_⟩, fun x a ha hn => ?_⟩
  · rw [procs_remains]
    exact Advances.of_sublist (List.filter_sublist.trans (hsub _))
  · rw [procs_remains]
    exact Advances.of_sublist (List.filter_sublist.trans (hsub _))
  · rw [free_remains, List.mem_append]
    by_cases hdead : a ∈ progeny v.children MAXPROC p
    · exact Or.inl (Or.inr hdead)
    · rw [procs_remains, List.mem_filter, not_and] at hn
      have hout : a ∉ (if x = none then (v.procs none).tail else v.procs x) := by
        intro hm
        exact hn hm (by simpa using hdead)
      split at hout
      · next hx =>
        subst hx
        exact Or.inr (left_tail ha hout)
      · exact absurd ha hout

theorem inOrder_block {s : Addr} (hoff : p ∉ v.procs (some s)) :
    InOrder v (v.block s p) := by
  have hprocs : ∀ x, (v.block s p).procs x = if x = some s then v.procs (some s) ++ [p] else
      if x = none then (v.procs none).tail else v.procs x := by
    intro x
    have hset : (v.setSem s (toLong (v.sem s - 1))).procs = v.procs := rfl
    rw [block, procs_insertBlocked, procs_removeReady, procs_removeReady, hset,
      if_neg (Option.some_ne_none s)]
  refine ⟨fun s' => ?_, ⟨_, Or.inl rfl, ?_⟩, fun x a ha hn => ?_⟩
  · rw [hprocs]
    split
    · next hs =>
      cases hs
      exact advances_snoc hoff
    · exact Advances.refl _
  · rw [hprocs]
    exact Advances.of_sublist (List.tail_sublist _)
  · rw [hprocs] at hn
    split at hn
    · next hs =>
      subst hs
      exact absurd (List.mem_append_left _ ha) hn
    · split at hn
      · next hx =>
        subst hx
        exact Or.inr (left_tail ha hn)
      · exact absurd ha hn

-- The clock puts the running process behind the ready ones, and wakes after that.
theorem procs_preempt (v : Sched) (tIn : Int) (old : State) (x : QueueId) :
    (v.preempt tIn old).procs x = if x = none then (v.procs none).rotate 1 else v.procs x := by
  unfold Sched.preempt
  split
  · next hr =>
    have hnil : v.procs none = [] := by
      rw [running, Option.map_eq_none_iff, List.head?_eq_none_iff] at hr
      rw [procs, hr]
      rfl
    split
    · next hx => rw [hx, hnil, List.rotate_nil]
    · rfl
  · next p hr =>
    have hhead : (v.procs none).head? = some p := by
      rw [procs, List.head?_map]
      exact hr
    obtain ⟨rest, hready⟩ := List.head?_eq_some_iff.mp hhead
    have hrem : ∀ x, ((v.removeReady.updateTotalTimeOnProcessor tIn p).saveState p old).procs x =
        if x = none then (v.procs none).tail else v.procs x := v.procs_removeReady
    rw [procs_insertReady, hrem, hrem, if_pos rfl, hready, List.rotate_cons_succ, List.rotate_zero]
    split
    · rfl
    · rfl

theorem inOrder_clock (v : Sched) (tIn : Int) (old : State) :
    InOrder v ((v.preempt tIn old).tick L) := by
  have hmid : ∀ s, (v.preempt tIn old).procs (some s) = v.procs (some s) := fun s => by
    rw [procs_preempt, if_neg (by simp)]
  have hrot : (v.preempt tIn old).procs none = (v.procs none).rotate 1 := by
    rw [procs_preempt, if_pos rfl]
  have hafter : ∀ w, InOrder (v.preempt tIn old) w →
      Advances ((v.procs none).rotate 1) (w.procs none) → (∀ a ∈ v.procs none, a ∈ w.procs none) →
      InOrder v w := by
    intro w hw hadv hstay
    refine ⟨fun s => hmid s ▸ hw.blocked s, ⟨_, Or.inr rfl, hadv⟩, fun x a ha hn => ?_⟩
    cases x with
    | none => exact absurd (hstay a ha) hn
    | some s =>
        have hl := hw.left (some s) a
        rw [hmid] at hl
        exact hl ha hn
  have hquiet : InOrder v (v.preempt tIn old) := by
    refine hafter _ (InOrder.refl _) ?_ fun a ha => ?_
    · rw [hrot]
      exact Advances.refl _
    · rw [hrot, List.mem_rotate]
      exact ha
  have hsame : ∀ w : Sched, Same none w { w with PSEUDO_CLOCK := 0 } :=
    fun _ => ⟨rfl, rfl, rfl, rfl, rfl, rfl, fun _ _ => rfl⟩
  unfold Sched.tick
  split
  · split
    · exact hquiet.same (hsame _)
    · have hsignal : InOrder v (((v.preempt tIn old).setSem L.PSEUDO_CLOCK_SEMAPHORE
          (toLong ((v.preempt tIn old).sem L.PSEUDO_CLOCK_SEMAPHORE + 1))).wake L.PSEUDO_CLOCK_SEMAPHORE) := by
        have hw := inOrder_wake ((v.preempt tIn old).setSem L.PSEUDO_CLOCK_SEMAPHORE
          (toLong ((v.preempt tIn old).sem L.PSEUDO_CLOCK_SEMAPHORE + 1))) L.PSEUDO_CLOCK_SEMAPHORE
        obtain ⟨woken, hready, hnew⟩ := woken_wake ((v.preempt tIn old).setSem
          L.PSEUDO_CLOCK_SEMAPHORE (toLong ((v.preempt tIn old).sem L.PSEUDO_CLOCK_SEMAPHORE + 1)))
          L.PSEUDO_CLOCK_SEMAPHORE
        have hset : ((v.preempt tIn old).setSem L.PSEUDO_CLOCK_SEMAPHORE
            (toLong ((v.preempt tIn old).sem L.PSEUDO_CLOCK_SEMAPHORE + 1))).procs none =
            (v.procs none).rotate 1 := hrot
        rw [hset] at hready hnew
        refine hafter _ ⟨hw.blocked, hw.ready, hw.left⟩ ?_ fun a ha => ?_
        · exact ⟨_, woken, hready, List.Sublist.refl _, hnew⟩
        · rw [hready, List.mem_append, List.mem_rotate]
          exact Or.inl ha
      exact hsignal.same (hsame _)
  · exact hquiet

-- Every entry keeps the order.
theorem InOrder.step (h : v.Wf L) (hd : e.call = some 3 → (e.vector.map Vpop.sem).Nodup) :
    InOrder v (v.step L e) := by
  obtain ⟨w, hw, hs⟩ := step_yields (e := e) h.pclock
  refine InOrder.same ?_ hs
  have hstable := h.toStable
  cases hw with
  | idle => exact InOrder.refl v
  | @create p c rest hr _ hfree =>
      have hc : c ∉ v.procs none := fun hm => h.live none c hm (hfree ▸ List.mem_cons_self)
      exact (v.same_enter none e p).inOrder (inOrder_create (v := v.enter e p) hc)
  | kill _ => exact v.inOrder_remains _
  | @vector p hr hcall =>
      exact (v.same_enter none e p).inOrder (inOrder_vectored (v := v.enter e p) (hd hcall) hr
        fun s => hstable.running_off hr s)
  | wait hr _ _ => exact inOrder_block (hstable.running_off hr _)
  | take => exact ⟨fun _ => Advances.refl _, ⟨_, Or.inl rfl, Advances.refl _⟩,
      fun _ _ ha hn => absurd ha hn⟩
  | @deliver d type reg a =>
      have hwake := inOrder_wake ((v.saveState a (((v.context a).p_s.setD2 reg.d_dadd).setD3
        reg.d_stat)).setSem (L.device d) 0) (L.device d)
      exact ⟨hwake.blocked, hwake.ready, hwake.left⟩
  | post => exact ⟨fun _ => Advances.refl _, ⟨_, Or.inl rfl, Advances.refl _⟩,
      fun _ _ ha hn => absurd ha hn⟩
  | clock =>
      have hclock := inOrder_clock (L := L) { v with PSEUDO_CLOCK := v.PSEUDO_CLOCK + QUANTUM }
        e.tIn e.old
      exact ⟨hclock.blocked, hclock.ready, hclock.left⟩

end Sched

end Hoca
