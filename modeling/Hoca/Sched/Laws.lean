import Hoca.Sched

namespace Hoca

open Forest

namespace Sched

variable {L : Layout} {v : Sched} {p : ProcId} {s : Addr} {path : ProcId → List ProcId}

section Procs

theorem procs_insertReady (v : Sched) (p : ProcId) (x : QueueId) :
    (v.insertReady p).procs x = if x = none then v.procs none ++ [p] else v.procs x := by
  by_cases hx : x = none
  · subst hx
    simp [procs, insertReady, enqueue]
  · simp only [procs, insertReady, if_neg hx]
    rw [enqueue_of_ne hx]

theorem procs_removeReady (v : Sched) (x : QueueId) :
    v.removeReady.procs x = if x = none then (v.procs none).tail else v.procs x := by
  by_cases hx : x = none
  · subst hx
    simp [procs, removeReady, dequeue]
  · simp only [procs, removeReady, if_neg hx]
    rw [dequeue_of_ne hx]

theorem procs_insertBlocked (v : Sched) (s : Addr) (p : ProcId) (x : QueueId) :
    (v.insertBlocked s p).procs x =
      if x = some s then v.procs (some s) ++ [p] else v.procs x := by
  by_cases hx : x = some s
  · subst hx
    simp [procs, insertBlocked, enqueue]
  · simp only [procs, insertBlocked, if_neg hx]
    rw [enqueue_of_ne hx]

theorem procs_removeBlocked (v : Sched) (s : Addr) (x : QueueId) :
    (v.removeBlocked s).procs x =
      if x = some s then (v.procs (some s)).tail else v.procs x := by
  by_cases hx : x = some s
  · subst hx
    simp [procs, removeBlocked, dequeue]
  · simp only [procs, removeBlocked, if_neg hx]
    rw [dequeue_of_ne hx]

-- The released process is ready when it waits nowhere else.
theorem wake_cases (v : Sched) (s : Addr) :
    (v.procs (some s) = [] ∧ v.wake s = v) ∨
      (∃ p rest, v.procs (some s) = p :: rest ∧
        (∃ x, p ∈ (v.removeBlocked s).procs x) ∧ v.wake s = v.removeBlocked s) ∨
      ∃ p rest, v.procs (some s) = p :: rest ∧
        (∀ x, p ∉ (v.removeBlocked s).procs x) ∧
        v.wake s = (v.removeBlocked s).insertReady p := by
  unfold wake
  cases hq : v.procs (some s) with
  | nil => exact Or.inl ⟨rfl, by simp⟩
  | cons p rest =>
      right
      simp only [List.head?_cons]
      by_cases hz : occupied (v.removeBlocked s).queue p = ∅
      · right
        exact ⟨p, rest, rfl, occupied_empty_iff.mp hz, by rw [if_pos hz]⟩
      · left
        refine ⟨p, rest, rfl, ?_, by rw [if_neg hz]⟩
        by_contra hn
        push Not at hn
        exact hz (occupied_empty_iff.mpr hn)

theorem semopStep_lock {o : Vpop} (hl : o.op = LOCK) (hz : v.sem o.sem ≤ 0) (p : ProcId) (b : Bool) :
    (v.semopStep o p b).1 =
      ((v.setSem o.sem (toLong (v.sem o.sem + o.op))).saveState p v.SYS_TRAP_OLD_STATE).insertBlocked
        o.sem p := by
  unfold semopStep
  rw [if_pos hl, if_pos hz]
  rfl

theorem semopStep_unlock {o : Vpop} (hu : o.op = UNLOCK) (hz : v.sem o.sem < 0) (p : ProcId)
    (b : Bool) : (v.semopStep o p b).1 = (v.setSem o.sem (toLong (v.sem o.sem + o.op))).wake o.sem := by
  have hl : o.op ≠ LOCK := by
    rw [hu]
    decide
  unfold semopStep
  rw [if_neg hl, if_pos ⟨hu, hz⟩]

theorem semopStep_word {o : Vpop} (hl : ¬ (o.op = LOCK ∧ v.sem o.sem ≤ 0))
    (hu : ¬ (o.op = UNLOCK ∧ v.sem o.sem < 0)) (p : ProcId) (b : Bool) :
    (v.semopStep o p b).1 = v.setSem o.sem (toLong (v.sem o.sem + o.op)) := by
  unfold semopStep
  by_cases hop : o.op = LOCK
  · rw [if_pos hop, if_neg fun hz => hl ⟨hop, hz⟩]
  · rw [if_neg hop, if_neg hu]

-- What an operation does: it makes the caller wait, wakes a waiter or only writes
-- the word.
theorem semopStep_cases (v : Sched) (o : Vpop) (p : ProcId) (b : Bool) :
    (o.op = LOCK ∧ v.sem o.sem ≤ 0 ∧ (v.semopStep o p b).1 =
        ((v.setSem o.sem (toLong (v.sem o.sem + o.op))).saveState p v.SYS_TRAP_OLD_STATE).insertBlocked
          o.sem p) ∨
      (o.op = UNLOCK ∧ v.sem o.sem < 0 ∧
        (v.semopStep o p b).1 = (v.setSem o.sem (toLong (v.sem o.sem + o.op))).wake o.sem) ∨
      (¬ (o.op = LOCK ∧ v.sem o.sem ≤ 0) ∧ ¬ (o.op = UNLOCK ∧ v.sem o.sem < 0) ∧
        (v.semopStep o p b).1 = v.setSem o.sem (toLong (v.sem o.sem + o.op))) := by
  by_cases hl : o.op = LOCK ∧ v.sem o.sem ≤ 0
  · exact Or.inl ⟨hl.1, hl.2, semopStep_lock hl.1 hl.2 p b⟩
  · right
    by_cases hu : o.op = UNLOCK ∧ v.sem o.sem < 0
    · exact Or.inl ⟨hu.1, hu.2, semopStep_unlock hu.1 hu.2 p b⟩
    · exact Or.inr ⟨hl, hu, semopStep_word hl hu p b⟩

theorem semopLoop_invariant {I : Sched → Prop}
    (hstep : ∀ (v : Sched) (o : Vpop) (b : Bool), I v → I (v.semopStep o p b).1) {v : Sched}
    (h : I v) (ops : List Vpop) (b : Bool) : I (semopLoop ops p v b).1 := by
  induction ops generalizing v b with
  | nil => exact h
  | cons o ops ih => exact ih (hstep v o b h) _

theorem procs_wake_some (v : Sched) (s s' : Addr) :
    (v.wake s).procs (some s') = if s' = s then (v.procs (some s)).tail else v.procs (some s') := by
  have hrem := v.procs_removeBlocked s (some s')
  simp only [Option.some.injEq] at hrem
  rcases v.wake_cases s with ⟨hq, hw⟩ | ⟨p, rest, -, -, hw⟩ | ⟨p, rest, -, -, hw⟩
  · rw [hw]
    split
    · next hs => rw [hs, hq, List.tail_nil]
    · rfl
  · rw [hw, hrem]
  · rw [hw, procs_insertReady, if_neg (by simp), hrem]

theorem procs_filter (v : Sched) (p : ProcId) (x : QueueId) :
    ((v.queue x).filter fun e => e.1 ≠ p).map Prod.fst = (v.procs x).filter fun a => a ≠ p := by
  rw [procs, List.filter_map]
  rfl

@[simp] theorem procs_killOne (v : Sched) (p : ProcId) (x : QueueId) :
    (v.killOne p).procs x = (v.procs x).filter fun a => a ≠ p :=
  v.procs_filter p x

theorem queue_removeReady (v : Sched) (s : Addr) :
    v.removeReady.queue (some s) = v.queue (some s) := by
  simp only [Sched.removeReady]
  rw [dequeue_of_ne (by simp)]

theorem frame_preempt (v : Sched) (tIn : Int) (old : State) (s : Addr) :
    (v.preempt tIn old).queue (some s) = v.queue (some s) ∧
      (v.preempt tIn old).sem = v.sem := by
  unfold Sched.preempt
  split
  · exact ⟨rfl, rfl⟩
  · refine ⟨?_, rfl⟩
    simp only [Sched.insertReady]
    rw [enqueue_of_ne (by simp)]
    exact v.queue_removeReady s

end Procs

section Running

theorem running_of_ready (hq : v.queue none ≠ []) : ∃ p, v.running = some p := by
  rw [Sched.running, List.head?_eq_some_head hq]
  exact ⟨_, rfl⟩

theorem running_append {v : Sched} (hr : v.running = some p) (e : Node) :
    Sched.running { v with queue := Function.update v.queue none (v.queue none ++ [e]) } =
      some p := by
  obtain ⟨e', he', rfl⟩ := Option.map_eq_some_iff.mp hr
  simp [running, List.head?_append, he']

theorem running_wake {v : Sched} (hr : v.running = some p) (s : Addr) :
    (v.wake s).running = some p := by
  have hrem : (v.removeBlocked s).running = some p := by
    simp only [running, removeBlocked]
    rw [dequeue_of_ne (by simp)]
    exact hr
  unfold wake
  split
  · exact hr
  · split
    · exact running_append hrem _
    · exact hrem

theorem running_inthandler {v : Sched} (hr : v.running = some p) (d : Device) (reg : DevReg) :
    (v.inthandler L d reg).running = some p := by
  unfold Sched.inthandler
  split
  · split
    · exact hr
    · exact running_wake (v := (v.saveState _ _).setSem (L.device d) 0) hr _
  · exact hr

theorem semopStep_fst (v : Sched) (o : Vpop) (p : ProcId) (b b' : Bool) :
    (v.semopStep o p b).1 = (v.semopStep o p b').1 := by
  unfold semopStep
  dsimp only
  split
  · split <;> rfl
  · split <;> rfl

theorem running_semopStep {v : Sched} (hr : v.running = some p) (o : Vpop) (b : Bool) :
    (v.semopStep o p b).1.running = some p := by
  rcases v.semopStep_cases o p b with ⟨-, -, hv⟩ | ⟨-, -, hv⟩ | ⟨-, -, hv⟩
  · rw [hv]
    simp only [running, insertBlocked]
    rw [enqueue_of_ne (by simp)]
    exact hr
  · rw [hv]
    exact running_wake (v := v.setSem o.sem (toLong (v.sem o.sem + o.op))) hr o.sem
  · rw [hv]
    exact hr

end Running

section Frame

-- The tree is not touched by the operations of a vector.
theorem frame_wake (v : Sched) (s : Addr) :
    ∃ q, v.wake s = { v with queue := q } := by
  unfold Sched.wake
  split
  · exact ⟨v.queue, rfl⟩
  · split
    · exact ⟨_, rfl⟩
    · exact ⟨_, rfl⟩

theorem free_wake (v : Sched) (s : Addr) : (v.wake s).free = v.free := by
  obtain ⟨q, hq⟩ := v.frame_wake s
  rw [hq]

theorem free_inthandler (v : Sched) (d : Device) (reg : DevReg) :
    (v.inthandler L d reg).free = v.free := by
  unfold Sched.inthandler
  split
  · split
    · rfl
    · exact free_wake ..
  · rfl

theorem free_tick (v : Sched) : (v.tick L).free = v.free := by
  unfold Sched.tick
  split
  · split
    · rfl
    · exact free_wake ..
  · rfl

theorem free_preempt (v : Sched) (tIn : Int) (old : State) : (v.preempt tIn old).free = v.free := by
  unfold Sched.preempt
  split <;> rfl

theorem frame_semopStep (v : Sched) (o : Vpop) (b : Bool) :
    ∃ q sem context, (v.semopStep o p b).1 =
      { v with queue := q, sem := sem, context := context } := by
  rcases v.semopStep_cases o p b with ⟨-, -, hv⟩ | ⟨-, -, hv⟩ | ⟨-, -, hv⟩
  · exact ⟨_, _, _, hv⟩
  · obtain ⟨q, hq⟩ := (v.setSem o.sem (toLong (v.sem o.sem + o.op))).frame_wake o.sem
    exact ⟨q, _, v.context, hv.trans hq⟩
  · exact ⟨v.queue, _, v.context, hv⟩

theorem frame_semopLoop (v : Sched) (ops : List Vpop) (b : Bool) :
    ∃ q sem context, (Sched.semopLoop ops p v b).1 =
      { v with queue := q, sem := sem, context := context } := by
  induction ops generalizing v b with
  | nil => exact ⟨v.queue, v.sem, v.context, rfl⟩
  | cons o ops ih =>
      obtain ⟨q, sem, context, hv⟩ := v.frame_semopStep o b (p := p)
      obtain ⟨q', sem', context', hv'⟩ := ih (v.semopStep o p b).1 (v.semopStep o p b).2
      refine ⟨q', sem', context', ?_⟩
      rw [Sched.semopLoop, hv', hv]

theorem frame_vectored (v : Sched) (p : ProcId) (ops : List Vpop) :
    ∃ q sem context, v.vectored ops p =
      { v with queue := q, sem := sem, context := context } := by
  obtain ⟨q, sem, context, hv⟩ := v.frame_semopLoop ops false (p := p)
  unfold Sched.vectored
  dsimp only
  rw [hv]
  split
  · exact ⟨_, sem, context, rfl⟩
  · exact ⟨q, sem, context, rfl⟩

theorem createproc_full (v : Sched) (hfree : v.free = []) : v.createproc p =
    { v with SYS_TRAP_OLD_STATE := v.SYS_TRAP_OLD_STATE.setD2 (-1) } := by
  unfold Sched.createproc
  split
  · rfl
  · next hcons => simp [hfree] at hcons

-- The child before it is put on readyQueue.
def newborn (v : Sched) (a c : ProcId) (rest : List ProcId) : Sched :=
  { v with
    SYS_TRAP_OLD_STATE := v.SYS_TRAP_OLD_STATE.setD2 0
    free := rest
    parent := Function.update v.parent c (some a)
    children := Function.update v.children a (v.children a ++ [c])
    context := Function.update v.context c
      { v.context c with p_s := v.areas v.SYS_TRAP_OLD_STATE.d4 } }

theorem createproc_cons (v : Sched) {c : ProcId} {rest : List ProcId}
    (hfree : v.free = c :: rest) : v.createproc p = (v.newborn p c rest).insertReady c := by
  unfold Sched.createproc
  split
  · next hnil => simp [hfree] at hnil
  · next c' rest' hcons =>
    rw [hfree, List.cons.injEq] at hcons
    obtain ⟨rfl, rfl⟩ := hcons
    rfl

theorem enter_trap (v : Sched) (e : Event) (p : ProcId) :
    ((v.enter e p).context p).trap_old_state = (v.context p).trap_old_state ∧
      ((v.enter e p).context p).trap_new_state = (v.context p).trap_new_state := by
  simp [Sched.enter, Sched.updateTotalTimeOnProcessor, Sched.setContext]

end Frame

section Kill

theorem killAll_append (l l' : List ProcId) (v : Sched) :
    v.killAll (l ++ l') = (v.killAll l).killAll l' := by
  simp [killAll]

theorem free_killAll (v : Sched) (l : List ProcId) : (v.killAll l).free = v.free ++ l := by
  induction l generalizing v with
  | nil => simp [Sched.killAll]
  | cons p l ih =>
      rw [show v.killAll (p :: l) = (v.killOne p).killAll l from rfl, ih]
      simp [Sched.killOne]

theorem procs_killAll (l : List ProcId) (v : Sched) (x : QueueId) :
    (v.killAll l).procs x = (v.procs x).filter fun p => p ∉ l := by
  induction l generalizing v with
  | nil => simp [killAll]
  | cons p l ih =>
      rw [show v.killAll (p :: l) = (v.killOne p).killAll l from rfl, ih, procs_killOne,
        List.filter_filter]
      exact List.filter_congr fun a _ => by simp [Bool.and_comm]

theorem parent_killAll (v : Sched) (l : List ProcId) (x : ProcId) :
    (v.killAll l).parent x = if x ∈ l then none else v.parent x := by
  induction l generalizing v with
  | nil => simp [killAll]
  | cons p l ih =>
      rw [show v.killAll (p :: l) = (v.killOne p).killAll l from rfl, ih]
      by_cases hl : x ∈ l
      · simp [hl]
      · by_cases hx : x = p
        · subst hx
          simp [killOne]
        · simp [killOne, hl, hx]

theorem children_killAll (v : Sched) (l : List ProcId) (x : ProcId) :
    (v.killAll l).children x = if x ∈ l then [] else v.children x := by
  induction l generalizing v with
  | nil => simp [killAll]
  | cons p l ih =>
      rw [show v.killAll (p :: l) = (v.killOne p).killAll l from rfl, ih]
      by_cases hl : x ∈ l
      · simp [hl]
      · by_cases hx : x = p
        · subst hx
          simp [killOne]
        · simp [killOne, hl, hx]

theorem unlinkChild_frame (v : Sched) (p : ProcId) :
    ∃ cs, v.unlinkChild p = { v with children := cs } := by
  unfold unlinkChild
  split
  · exact ⟨v.children, rfl⟩
  · exact ⟨_, rfl⟩

theorem queue_unlinkChild (v : Sched) (p : ProcId) : (v.unlinkChild p).queue = v.queue := by
  obtain ⟨cs, hcs⟩ := v.unlinkChild_frame p
  rw [hcs]

-- A process that leaves its parent and readyQueue is where it was on the other queues.
theorem queue_unlinked (v : Sched) (p : ProcId) (s : Addr) :
    (v.unlinkChild p).removeReady.queue (some s) = v.queue (some s) := by
  rw [queue_removeReady, queue_unlinkChild]

theorem procs_unlinked (v : Sched) (p : ProcId) (s : Addr) :
    (v.unlinkChild p).removeReady.procs (some s) = v.procs (some s) :=
  congrArg (List.map Prod.fst) (v.queue_unlinked p s)

-- The tree of an abstract kernel: its nodes are the allocated processes.
def Rooted (v : Sched) (path : ProcId → List ProcId) : Prop :=
  Family (fun p => p ∉ v.free) v.parent v.children path

theorem Rooted.length_path {v : Sched} (h : v.Rooted path) {p : ProcId} (hp : p ∉ v.free) :
    (path p).length ≤ MAXPROC := by
  have hl := (h.path_nodup p hp).length_le_card
  simpa using hl

theorem Rooted.within {v : Sched} (h : v.Rooted path) {p : ProcId} (hp : p ∉ v.free) :
    Within v.children MAXPROC p := by
  refine Family.within h hp (fun x hx => h.length_path hx) ?_
  have hm := List.length_pos_of_mem (Family.self_mem_path h hp)
  omega

theorem Rooted.children_unlink {v : Sched} (h : v.Rooted path) (p : ProcId) :
    (v.unlinkChild p).children = fun x => (v.children x).erase p := by
  funext x
  unfold unlinkChild
  split
  · next hp =>
      refine (List.erase_of_not_mem fun hm => ?_).symm
      rw [h.child, hp] at hm
      cases hm
  · next a hp =>
      by_cases hx : x = a
      · subst hx
        simp
      · have hm : p ∉ v.children x := fun hm => by
          rw [h.child, hp] at hm
          exact hx (Option.some.inj hm).symm
        simp [hx, List.erase_of_not_mem hm]

-- The kernel after a process and its progeny are gone, before schedule.
noncomputable def remains (v : Sched) (p : ProcId) : Sched :=
  (v.unlinkChild p).removeReady.killAll (progeny v.children MAXPROC p)

theorem free_remains (v : Sched) (p : ProcId) :
    (v.remains p).free = v.free ++ progeny v.children MAXPROC p := by
  obtain ⟨cs, hcs⟩ := v.unlinkChild_frame p
  rw [remains, free_killAll, hcs]
  rfl

theorem parent_remains (v : Sched) (p x : ProcId) : (v.remains p).parent x =
    if x ∈ progeny v.children MAXPROC p then none else v.parent x := by
  obtain ⟨cs, hcs⟩ := v.unlinkChild_frame p
  rw [remains, parent_killAll, hcs]
  rfl

-- The queues lose the dead.
theorem procs_remains (v : Sched) (p : ProcId) (x : QueueId) : (v.remains p).procs x =
    (if x = none then (v.procs none).tail else v.procs x).filter
      fun a => a ∉ progeny v.children MAXPROC p := by
  obtain ⟨cs, hcs⟩ := v.unlinkChild_frame p
  rw [remains, procs_killAll, procs_removeReady, hcs]
  rfl

theorem Rooted.remains {v : Sched} (h : v.Rooted path) {p : ProcId} (hp : p ∉ v.free) :
    (v.remains p).Rooted path := by
  have hprune := Family.prune h fun x => Family.mem_progeny_iff h hp (h.within hp)
  have hparent : (v.remains p).parent =
      fun x => if x ∈ progeny v.children MAXPROC p then none else v.parent x :=
    funext (v.parent_remains p)
  have hchildren : (v.remains p).children =
      fun x => if x ∈ progeny v.children MAXPROC p then [] else (v.children x).erase p := by
    funext x
    rw [Sched.remains, children_killAll, removeReady, h.children_unlink]
  have hlive : (fun x => x ∉ (v.remains p).free) =
      fun x => x ∉ v.free ∧ x ∉ progeny v.children MAXPROC p := by
    funext x
    rw [free_remains, List.mem_append, not_or]
  rw [Rooted, hparent, hchildren, hlive]
  exact hprune

end Kill

section Tidy

-- No process is twice on a queue, and a ready one is on no other.
structure Tidy (v : Sched) : Prop where
  distinct : ∀ x, (v.procs x).Nodup
  ready : ∀ e ∈ v.queue none, e.2 = 0
  alone : ∀ p ∈ v.procs none, ∀ s, p ∉ v.procs (some s)

-- What the routines of the nucleus find on readyQueue.
structure Neat (v : Sched) : Prop where
  once : (v.procs none).Nodup
  ready : ∀ e ∈ v.queue none, e.2 = 0
  alone : ∀ p ∈ v.procs none, ∀ s, p ∉ v.procs (some s)

theorem Tidy.neat {v : Sched} (h : v.Tidy) : v.Neat := ⟨h.distinct none, h.ready, h.alone⟩

theorem Neat.killOne {v : Sched} (h : v.Neat) (p : ProcId) : (v.killOne p).Neat where
  once := by
    rw [procs_killOne]
    exact h.once.filter _
  ready e he := h.ready e (List.mem_filter.mp he).1
  alone a ha s hs := by
    rw [procs_killOne, List.mem_filter] at ha hs
    exact h.alone a ha.1 s hs.1

theorem Neat.killAll {v : Sched} (h : v.Neat) (l : List ProcId) : (v.killAll l).Neat := by
  induction l generalizing v with
  | nil => exact h
  | cons p l ih => exact ih (h.killOne p)

theorem Neat.cleanReady {v : Sched} (h : v.Neat) : CleanHead (v.queue none) :=
  cleanHead_of_slot h.ready

theorem Neat.removeReady {v : Sched} (h : v.Neat) : v.removeReady.Neat := by
  have hnone : v.removeReady.queue none = (v.queue none).tail := by
    simp [Sched.removeReady, dequeue]
  refine ⟨?_, fun e he => ?_, fun p hp s hs => ?_⟩
  · rw [procs_removeReady, if_pos rfl]
    exact h.once.sublist (List.tail_sublist _)
  · rw [hnone] at he
    exact h.ready e (List.mem_of_mem_tail he)
  · rw [procs_removeReady, if_pos rfl] at hp
    rw [procs_removeReady, if_neg (by simp)] at hs
    exact h.alone p (List.mem_of_mem_tail hp) s hs

theorem Neat.unlinkChild {v : Sched} (h : v.Neat) (p : ProcId) : (v.unlinkChild p).Neat := by
  obtain ⟨cs, hcs⟩ := v.unlinkChild_frame p
  rw [hcs]
  exact ⟨h.once, h.ready, h.alone⟩

-- The running process is on no queue once it has left readyQueue.
theorem Neat.off_removeReady (ht : v.Neat) (hr : v.running = some p) (x : QueueId) :
    p ∉ v.removeReady.procs x := by
  obtain ⟨e, he, rfl⟩ := Option.map_eq_some_iff.mp hr
  have hcons := List.cons_head?_tail he
  have hm : e.1 ∈ v.procs none := List.mem_map_of_mem (List.mem_of_head? he)
  cases x with
  | none =>
      have hd := ht.once
      rw [Sched.procs, ← hcons, List.map_cons, List.nodup_cons] at hd
      simpa [Sched.procs, Sched.removeReady, dequeue] using hd.1
  | some s =>
      rw [Sched.procs, v.queue_removeReady]
      exact ht.alone e.1 hm s

-- The ready processes are queued by their first p_link entry.
theorem ready_wake {v : Sched} (h : ∀ e ∈ v.queue none, e.2 = 0) (s : Addr) :
    ∀ e ∈ (v.wake s).queue none, e.2 = 0 := by
  unfold Sched.wake
  split
  · exact h
  · next p _ =>
    have hrem : ∀ e ∈ (v.removeBlocked s).queue none, e.2 = 0 := by
      simp only [Sched.removeBlocked]
      rw [dequeue_of_ne (by simp)]
      exact h
    split
    · next hz =>
      intro e he
      simp only [Sched.insertReady] at he
      rw [enqueue, Function.update_self, List.mem_append, List.mem_singleton] at he
      rcases he with he | rfl
      · exact hrem e he
      · refine freeSlot_eq_zero fun x hx => ?_
        have hm := mem_occupied.mpr ⟨x, hx⟩
        rw [hz] at hm
        simp at hm
    · exact hrem

theorem ready_semopStep {v : Sched} (h : ∀ e ∈ v.queue none, e.2 = 0) (o : Vpop) (b : Bool) :
    ∀ e ∈ (v.semopStep o p b).1.queue none, e.2 = 0 := by
  rcases v.semopStep_cases o p b with ⟨-, -, hv⟩ | ⟨-, -, hv⟩ | ⟨-, -, hv⟩
  · rw [hv]
    simp only [Sched.insertBlocked]
    rw [enqueue_of_ne (by simp)]
    exact h
  · rw [hv]
    exact Sched.ready_wake (v := v.setSem o.sem (toLong (v.sem o.sem + o.op))) h o.sem
  · rw [hv]
    exact h

theorem ready_semopLoop {v : Sched} (h : ∀ e ∈ v.queue none, e.2 = 0) (ops : List Vpop)
    (b : Bool) : ∀ e ∈ (Sched.semopLoop ops p v b).1.queue none, e.2 = 0 :=
  Sched.semopLoop_invariant (I := fun v => ∀ e ∈ v.queue none, e.2 = 0)
    (fun _ o b h => Sched.ready_semopStep h o b) h ops b

end Tidy

section Lawful

-- The laws of the queues. The process that is in the middle of a system call
-- may be ready and waiting.
structure Lawful (L : Layout) (busy : Option ProcId) (v : Sched) : Prop where
  distinct : ∀ x, (v.procs x).Nodup
  ready : ∀ e ∈ v.queue none, e.2 = 0
  alone : ∀ p ∈ v.procs none, some p ≠ busy → ∀ s, p ∉ v.procs (some s)
  live : ∀ x, ∀ p ∈ v.procs x, p ∉ v.free
  slot : ∀ s, L.Reserved s → ∀ e ∈ v.queue (some s), e.2 = 0
  only : ∀ s, L.Reserved s → ∀ p ∈ v.procs (some s), ∀ x, x ≠ some s → p ∉ v.procs x

-- A queue that holds a process once at most. A semaphore of `R` may hold it more
-- than once, when it is not the kernel's.
def Strict (L : Layout) (R : Set Addr) (x : QueueId) : Prop :=
  ∀ s ∈ R, x = some s → L.Reserved s

-- The same laws, for runs in which a process may be queued more than once on the
-- semaphores of `R`.
structure LawfulExcept (L : Layout) (R : Set Addr) (busy : Option ProcId) (v : Sched) : Prop where
  distinct : ∀ x, Strict L R x → (v.procs x).Nodup
  ready : ∀ e ∈ v.queue none, e.2 = 0
  alone : ∀ p ∈ v.procs none, some p ≠ busy → ∀ s, p ∉ v.procs (some s)
  live : ∀ x, ∀ p ∈ v.procs x, p ∉ v.free
  slot : ∀ s, L.Reserved s → ∀ e ∈ v.queue (some s), e.2 = 0
  only : ∀ s, L.Reserved s → ∀ p ∈ v.procs (some s), ∀ x, x ≠ some s → p ∉ v.procs x

variable {busy : Option ProcId} {R : Set Addr}

theorem strict_none : Strict L R none := fun _ _ h => by cases h

theorem strict_reserved (hs : L.Reserved s) : Strict L R (some s) := by
  rintro _ _ ⟨⟩
  exact hs

theorem Lawful.except (h : v.Lawful L busy) : v.LawfulExcept L R busy :=
  ⟨fun x _ => h.distinct x, h.ready, h.alone, h.live, h.slot, h.only⟩

theorem LawfulExcept.exact (h : v.LawfulExcept L ∅ busy) : v.Lawful L busy :=
  ⟨fun x => h.distinct x fun _ hs => hs.elim, h.ready, h.alone, h.live, h.slot, h.only⟩

theorem LawfulExcept.insertReady (h : v.LawfulExcept L R busy) (hp : ∀ x, p ∉ v.procs x) (hlive : p ∉ v.free) :
    (v.insertReady p).LawfulExcept L R busy where
  distinct x hx := by
    rw [procs_insertReady]
    split
    · rw [List.nodup_append]
      refine ⟨h.distinct none strict_none, by simp, fun a ha b hb heq => ?_⟩
      rw [List.mem_singleton] at hb
      exact hp none (hb ▸ heq ▸ ha)
    · exact h.distinct x hx
  ready e he := by
    simp only [Sched.insertReady] at he
    rw [enqueue, Function.update_self, List.mem_append, List.mem_singleton] at he
    rcases he with he | rfl
    · exact h.ready e he
    · exact freeSlot_zero hp
  alone a ha hb s := by
    rw [procs_insertReady, if_pos rfl, List.mem_append, List.mem_singleton] at ha
    rw [procs_insertReady, if_neg (by simp)]
    rcases ha with ha | rfl
    · exact h.alone a ha hb s
    · exact hp (some s)
  live x a ha := by
    rw [procs_insertReady] at ha
    split at ha
    · rw [List.mem_append, List.mem_singleton] at ha
      rcases ha with ha | rfl
      · exact h.live none a ha
      · exact hlive
    · exact h.live x a ha
  slot s hs e he := by
    simp only [Sched.insertReady] at he
    rw [enqueue_of_ne (by simp)] at he
    exact h.slot s hs e he
  only s hs a ha x hx := by
    rw [procs_insertReady, if_neg (by simp)] at ha
    rw [procs_insertReady]
    split
    · rw [List.mem_append, List.mem_singleton, not_or]
      refine ⟨h.only s hs a ha none (by simp), ?_⟩
      rintro rfl
      exact hp (some s) ha
    · exact h.only s hs a ha x hx

-- Queues may lose processes.
theorem LawfulExcept.shrink {v' : Sched} (h : v.LawfulExcept L R busy)
    (hsub : ∀ x, (v'.queue x).Sublist (v.queue x))
    (hfree : ∀ x, ∀ p ∈ v'.procs x, p ∉ v.free → p ∉ v'.free) : v'.LawfulExcept L R busy := by
  have hprocs : ∀ x, (v'.procs x).Sublist (v.procs x) := fun x => (hsub x).map _
  exact
    { distinct := fun x hx => (h.distinct x hx).sublist (hprocs x)
      ready := fun e he => h.ready e ((hsub none).subset he)
      alone := fun p hp hb s hs =>
        h.alone p ((hprocs none).subset hp) hb s ((hprocs (some s)).subset hs)
      live := fun x p hp => hfree x p hp (h.live x p ((hprocs x).subset hp))
      slot := fun s hs e he => h.slot s hs e ((hsub (some s)).subset he)
      only := fun s hs p hp x hx hpx =>
        h.only s hs p ((hprocs (some s)).subset hp) x hx ((hprocs x).subset hpx) }

theorem LawfulExcept.congr {v' : Sched} (h : v.LawfulExcept L R busy) (hq : v'.queue = v.queue)
    (hfree : v'.free = v.free) : v'.LawfulExcept L R busy :=
  h.shrink (fun x => by rw [hq]) fun x p _ hp => by rwa [hfree]

theorem LawfulExcept.removeReady (h : v.LawfulExcept L R busy) : v.removeReady.LawfulExcept L R busy :=
  h.shrink (dequeue_sublist v.queue none) fun _ _ _ hp => hp

theorem LawfulExcept.removeBlocked (h : v.LawfulExcept L R busy) (s : Addr) :
    (v.removeBlocked s).LawfulExcept L R busy :=
  h.shrink (dequeue_sublist v.queue (some s)) fun _ _ _ hp => hp

theorem LawfulExcept.wake (h : v.LawfulExcept L R busy) (s : Addr) : (v.wake s).LawfulExcept L R busy := by
  rcases v.wake_cases s with ⟨-, hw⟩ | ⟨p, rest, -, -, hw⟩ | ⟨p, rest, hq, hp, hw⟩
  · rwa [hw]
  · rw [hw]
    exact h.removeBlocked s
  · rw [hw]
    exact (h.removeBlocked s).insertReady hp (h.live (some s) p (hq ▸ by simp))

theorem LawfulExcept.killOne (h : v.LawfulExcept L R busy) (p : ProcId) : (v.killOne p).LawfulExcept L R busy := by
  refine h.shrink (fun x => List.filter_sublist) fun x a ha hlive => ?_
  rw [procs_killOne, List.mem_filter] at ha
  simp only [Sched.killOne, List.mem_append, List.mem_singleton, not_or]
  exact ⟨hlive, by simpa using ha.2⟩

theorem LawfulExcept.killAll (h : v.LawfulExcept L R busy) (l : List ProcId) : (v.killAll l).LawfulExcept L R busy := by
  induction l generalizing v with
  | nil => exact h
  | cons p l ih => exact ih (h.killOne p)

-- A process is put on a semaphore queue. On one of the kernel's it is alone,
-- and only the busy one can be ready as well.
theorem LawfulExcept.insertBlocked (h : v.LawfulExcept L R busy) (hnew : Strict L R (some s) → p ∉ v.procs (some s))
    (hready : some p ≠ busy → p ∉ v.procs none) (hlive : p ∉ v.free)
    (hkernel : L.Reserved s → ∀ x, p ∉ v.procs x)
    (hfresh : ∀ s', L.Reserved s' → p ∉ v.procs (some s')) :
    (v.insertBlocked s p).LawfulExcept L R busy where
  distinct x hx := by
    rw [procs_insertBlocked]
    split
    · next hs =>
      subst hs
      rw [List.nodup_append]
      refine ⟨h.distinct (some s) hx, by simp, fun a ha b hb heq => ?_⟩
      rw [List.mem_singleton] at hb
      exact hnew hx (hb ▸ heq ▸ ha)
    · exact h.distinct x hx
  ready e he := by
    simp only [Sched.insertBlocked] at he
    rw [enqueue_of_ne (by simp)] at he
    exact h.ready e he
  alone a ha hb s' := by
    rw [procs_insertBlocked, if_neg (by simp)] at ha
    rw [procs_insertBlocked]
    split
    · rw [List.mem_append, List.mem_singleton, not_or]
      refine ⟨h.alone a ha hb s, ?_⟩
      rintro rfl
      exact hready hb ha
    · exact h.alone a ha hb s'
  live x a ha := by
    rw [procs_insertBlocked] at ha
    split at ha
    · rw [List.mem_append, List.mem_singleton] at ha
      rcases ha with ha | rfl
      · exact h.live (some s) a ha
      · exact hlive
    · exact h.live x a ha
  slot s' hs e he := by
    simp only [Sched.insertBlocked] at he
    by_cases hss : s' = s
    · subst hss
      rw [enqueue, Function.update_self, List.mem_append, List.mem_singleton] at he
      rcases he with he | rfl
      · exact h.slot s' hs e he
      · exact freeSlot_zero (hkernel hs)
    · rw [enqueue_of_ne (by simpa using hss)] at he
      exact h.slot s' hs e he
  only s' hs a ha x hx := by
    rw [procs_insertBlocked] at ha ⊢
    split at ha
    · next hss =>
      cases hss
      rw [List.mem_append, List.mem_singleton] at ha
      rw [if_neg hx]
      rcases ha with ha | rfl
      · exact h.only s hs a ha x hx
      · exact hkernel hs x
    · split
      · next hxs =>
        rw [List.mem_append, List.mem_singleton, not_or]
        refine ⟨h.only s' hs a ha (some s) (hxs ▸ hx), ?_⟩
        rintro rfl
        exact hfresh s' hs ha
      · exact h.only s' hs a ha x hx

end Lawful

section Admits

-- A descriptor is at hand for the semaphore.
def HasDescriptor (v : Sched) (s : Addr) : Prop :=
  v.queue (some s) ≠ [] ∨ {s | v.queue (some s) ≠ []}.ncard < MAXPROC

-- A process at the head of a semaphore queue can be taken out of it cleanly.
def Killable (v : Sched) (p : ProcId) : Prop :=
  ∀ s, (v.procs (some s)).head? = some p → CleanHead (v.queue (some s))

def AllKillable : List ProcId → Sched → Prop
  | [], _ => True
  | p :: rest, v => v.Killable p ∧ AllKillable rest (v.killOne p)

-- The operation stays within the tables, and takes a waiter out cleanly.
def Fits (v : Sched) (o : Vpop) (p : ProcId) : Prop :=
  (o.op = LOCK → v.sem o.sem ≤ 0 →
      (occupied v.queue p).card < SEMMAX ∧ v.HasDescriptor o.sem) ∧
    (o.op = UNLOCK → v.sem o.sem < 0 → CleanHead (v.queue (some o.sem)))

def AllFit : List Vpop → ProcId → Sched → Prop
  | [], _, _ => True
  | o :: rest, p, v => v.Fits o p ∧ AllFit rest p (v.semopStep o p false).1

-- The value of a semaphore and the number of its waiters.
def level (v : Sched) (s : Addr) : Int := v.sem s + (v.queue (some s)).length

-- What holds between kernel entries, whatever the processes have done: of the
-- memory, and of the processor.
structure Stable (L : Layout) (v : Sched) : Prop extends Lawful L none v where
  spare : v.free.Nodup
  rooted : ∃ path, v.Rooted path
  pclock : v.level L.PSEUDO_CLOCK_SEMAPHORE = 0

structure Wf (L : Layout) (v : Sched) : Prop extends Stable L v where
  settled : v.queue none = [] → v.intdeadlock L = v
  asleep : v.cpu = .asleep → v.queue none = []

structure StableExcept (L : Layout) (R : Set Addr) (v : Sched) : Prop
    extends LawfulExcept L R none v where
  spare : v.free.Nodup
  rooted : ∃ path, v.Rooted path
  pclock : v.level L.PSEUDO_CLOCK_SEMAPHORE = 0

structure WfExcept (L : Layout) (R : Set Addr) (v : Sched) : Prop
    extends StableExcept L R v where
  settled : v.queue none = [] → v.intdeadlock L = v
  asleep : v.cpu = .asleep → v.queue none = []

variable {R : Set Addr}

theorem Stable.except (h : v.Stable L) : v.StableExcept L R :=
  ⟨h.toLawful.except, h.spare, h.rooted, h.pclock⟩

theorem StableExcept.exact (h : v.StableExcept L ∅) : v.Stable L :=
  ⟨h.toLawfulExcept.exact, h.spare, h.rooted, h.pclock⟩

theorem Wf.except (h : v.Wf L) : v.WfExcept L R :=
  ⟨h.toStable.except, h.settled, h.asleep⟩

theorem WfExcept.exact (h : v.WfExcept L ∅) : v.Wf L :=
  ⟨h.toStableExcept.exact, h.settled, h.asleep⟩

theorem intdeadlock_cpu (v : Sched) (L : Layout) (s : State) : (v.intdeadlock L).cpu ≠ .running s := by
  unfold intdeadlock
  split
  · simp
  · split
    · simp
    · split <;> simp

theorem WfExcept.awake (h : v.WfExcept L R) {s : State} (hs : v.cpu = .running s) : v.queue none ≠ [] := by
  intro hq
  exact v.intdeadlock_cpu L s ((congrArg (fun v => v.cpu) (h.settled hq)).trans hs)

-- What the processor promises about an entry: a trap comes from the running
-- process, and a device has a number.
structure Expects (v : Sched) (e : Event) : Prop where
  running : e.kind = .sys ∨ e.kind = .mm ∨ e.kind = .prog → ∃ p, v.running = some p
  device : ∀ type reg, e.kind = .device type reg → ∃ d, e.device = some d

theorem WfExcept.expects (h : v.WfExcept L R) {k : Kernel} {e : Event} (hcpu : k.cpu = v.cpu)
    (hen : k.Enabled e = true) : v.Expects e where
  running hk := by
    unfold Kernel.Enabled at hen
    cases hc : k.cpu with
    | running s => exact running_of_ready (h.awake (hcpu.symm.trans hc))
    | asleep => rcases hk with hk | hk | hk <;> simp [hc, hk] at hen
    | halted m => simp [hc] at hen
  device type reg hk := by
    apply Option.isSome_iff_exists.mp
    unfold Kernel.Enabled at hen
    cases hc : k.cpu <;> simp [hc, hk] at hen <;> exact hen

theorem Wf.awake (h : v.Wf L) {s : State} (hs : v.cpu = .running s) : v.queue none ≠ [] :=
  (h.except (R := ∅)).awake hs

theorem Wf.expects (h : v.Wf L) {k : Kernel} {e : Event} (hcpu : k.cpu = v.cpu)
    (hen : k.Enabled e = true) : v.Expects e :=
  (h.except (R := ∅)).expects hcpu hen

theorem StableExcept.neat (h : v.StableExcept L R) : v.Neat :=
  ⟨h.distinct none strict_none, h.ready, fun p hp => h.alone p hp (by simp)⟩

theorem Wf.tidy (h : v.Wf L) : v.Tidy :=
  ⟨h.distinct, h.ready, fun p hp => h.alone p hp (by simp)⟩

-- The entry stays within the tables and takes every process out cleanly.
structure Admits (L : Layout) (v : Sched) (e : Event) : Prop where
  kill : ∀ p, v.running = some p → e.Ends (v.context p) →
    AllKillable (progeny v.children MAXPROC p) (v.unlinkChild p).removeReady
  vector : ∀ p, v.running = some p → e.call = some 3 → AllFit e.vector p (v.enter e p)
  clock : ∀ p, v.running = some p → e.call = some 7 → v.HasDescriptor L.PSEUDO_CLOCK_SEMAPHORE
  device : ∀ p, v.running = some p → e.call = some 8 → ∃ d, deviceOf e.old.d4 = some d ∧
    (v.sem (L.device d) ≤ 0 → v.HasDescriptor (L.device d))

theorem WfExcept.clean_reserved (h : v.WfExcept L R) {s : Addr} (hs : L.Reserved s) :
    CleanHead (v.queue (some s)) :=
  cleanHead_of_slot (h.slot s hs)

theorem WfExcept.clean_device (h : v.WfExcept L R) (d : Device) :
    CleanHead (v.queue (some (L.device d))) :=
  h.clean_reserved (Or.inr ⟨d, rfl⟩)

theorem device_kind {e : Event} {d : Device} (h : e.device = some d) : ∃ type reg, e.kind = .device type reg := by
  unfold Event.device at h
  split at h
  · next type reg hkind => exact ⟨type, reg, hkind⟩
  · cases h

-- A device that interrupts with its semaphore at -1 finds somebody waiting for it.
def Answers (L : Layout) (v : Sched) (e : Event) : Prop :=
  ∀ d, e.device = some d → v.sem (L.device d) = -1 → v.procs (some (L.device d)) ≠ []

end Admits

end Sched

end Hoca
