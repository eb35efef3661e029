import Hoca.Sched.Account

namespace Hoca

open Forest

-- A vector as the support level issues them: P and V on distinct semaphores, P
-- on one of them at most.
@[mk_iff]
structure Tame (U : Set Addr) (ops : List Vpop) : Prop where
  op : ∀ o ∈ ops, o.op = LOCK ∨ o.op = UNLOCK
  sem : ∀ o ∈ ops, o.sem ∈ U
  distinct : (ops.map Vpop.sem).Nodup
  single : (Sched.locks ops).length ≤ 1

@[mk_iff]
structure Disciplined (U : Set Addr) (e : Event) : Prop where
  vector : e.call = some 3 → Tame U e.vector
  device : e.call = some 8 → ∃ d, deviceOf e.old.d4 = some d

section Decide

variable {U : Set Addr} [DecidablePred (· ∈ U)]

instance (L : Layout) : DecidablePred (· ∈ L.user) := fun s =>
  inferInstanceAs (Decidable (¬ L.Reserved s))

instance (ops : List Vpop) : Decidable (Tame U ops) := decidable_of_iff' _ (tame_iff U ops)

instance (e : Event) : Decidable (Disciplined U e) :=
  decidable_of_iff ((e.call = some 3 → Tame U e.vector) ∧
      (e.call = some 8 → (deviceOf e.old.d4).isSome))
    (by simp only [disciplined_iff, Option.isSome_iff_exists])

end Decide

theorem Tame.separate {L : Layout} {U : Set Addr} {ops : List Vpop} (h : Tame U ops)
    (hU : ∀ s ∈ U, ¬ L.Reserved s) : Sched.Separate L ops :=
  ⟨fun o ho => hU o.sem (h.sem o ho), h.distinct.sublist (List.filter_sublist.map _)⟩

theorem Disciplined.apart {L : Layout} {U : Set Addr} {e : Event} (hd : Disciplined U e)
    (hU : ∀ s ∈ U, ¬ L.Reserved s) : Sched.Apart L e where
  reserved hc := ((hd.vector hc).separate hU).1
  distinct hc := ((hd.vector hc).separate hU).2

namespace Sched

variable {L : Layout} {U : Set Addr} {v v' : Sched} {p : ProcId} {s : Addr}
  {busy : Option ProcId} {ops : List Vpop} {e : Event}

-- A process is on one queue. It uses its first p_link entry on readyQueue and on
-- the kernel's semaphores, and its second on the others.
structure Single (L : Layout) (busy : Option ProcId) (v : Sched) : Prop where
  second : ∀ s, ¬ L.Reserved s → ∀ e ∈ v.queue (some s), e.2 = 1
  single : ∀ p, some p ≠ busy → ∀ x y, p ∈ v.procs x → p ∈ v.procs y → x = y

theorem Single.shrink (h : v.Single L busy) (hsub : ∀ x, (v'.queue x).Sublist (v.queue x)) :
    v'.Single L busy where
  second s hs e he := h.second s hs e ((hsub (some s)).subset he)
  single p hp x y hx hy :=
    h.single p hp x y (((hsub x).map _).subset hx) (((hsub y).map _).subset hy)

theorem Single.congr (h : v.Single L busy) (hq : v'.queue = v.queue) : v'.Single L busy :=
  h.shrink fun x => by rw [hq]

-- A process that is on no queue, or is the busy one, joins one.
theorem Single.single_join (h : v.Single L busy) {y : QueueId}
    (hp : some p ≠ busy → ∀ x, p ∉ v.procs x)
    (hprocs : ∀ x, v'.procs x = if x = y then v.procs y ++ [p] else v.procs x) :
    ∀ a, some a ≠ busy → ∀ x x', a ∈ v'.procs x → a ∈ v'.procs x' → x = x' := by
  intro a ha x x' hx hx'
  have hmem : ∀ x, a ∈ v'.procs x → a ∈ v.procs x ∨ (a = p ∧ x = y) := by
    intro x hx
    rw [hprocs] at hx
    split at hx
    · next hn =>
      rw [List.mem_append, List.mem_singleton] at hx
      exact hx.imp (fun hx => hn ▸ hx) fun hx => ⟨hx, hn⟩
    · exact Or.inl hx
  rcases hmem x hx with hold | ⟨rfl, rfl⟩
  · rcases hmem x' hx' with hold' | ⟨rfl, rfl⟩
    · exact h.single a ha x x' hold hold'
    · exact absurd hold (hp ha x)
  · rcases hmem x' hx' with hold' | ⟨-, rfl⟩
    · exact absurd hold' (hp ha x')
    · rfl

theorem Single.insertReady (h : v.Single L busy) (hp : ∀ x, p ∉ v.procs x) :
    (v.insertReady p).Single L busy where
  second s hs e he := by
    simp only [Sched.insertReady] at he
    rw [enqueue_of_ne (by simp)] at he
    exact h.second s hs e he
  single := h.single_join (fun _ => hp) (v.procs_insertReady p)

theorem Single.wake (h : v.Single L busy) (s : Addr) : (v.wake s).Single L busy := by
  have hrem : (v.removeBlocked s).Single L busy := h.shrink (dequeue_sublist v.queue (some s))
  rcases v.wake_cases s with ⟨-, hw⟩ | ⟨p, rest, -, -, hw⟩ | ⟨p, rest, -, hp, hw⟩
  · rwa [hw]
  · rw [hw]
    exact hrem
  · rw [hw]
    exact hrem.insertReady hp

-- The process is on no queue before, or it is the busy one.
theorem Single.insertBlocked (h : v.Single L busy)
    (hslot : ¬ L.Reserved s → freeSlot v.queue p = 1)
    (hp : some p ≠ busy → ∀ x, p ∉ v.procs x) : (v.insertBlocked s p).Single L busy where
  second s' hs e he := by
    simp only [Sched.insertBlocked] at he
    by_cases hss : s' = s
    · subst hss
      rw [enqueue, Function.update_self, List.mem_append, List.mem_singleton] at he
      rcases he with he | rfl
      · exact h.second s' hs e he
      · exact hslot hs
    · rw [enqueue_of_ne (by simpa using hss)] at he
      exact h.second s' hs e he
  single := h.single_join hp (v.procs_insertBlocked s p)

-- A ready process that waits nowhere takes its second entry next.
theorem freeSlot_running (hready : ∀ e ∈ v.queue none, e.2 = 0) (hr : v.running = some p)
    (hoff : ∀ s, p ∉ v.procs (some s)) : freeSlot v.queue p = 1 := by
  obtain ⟨⟨a, i⟩, he, rfl⟩ := Option.map_eq_some_iff.mp hr
  have hm := List.mem_of_head? he
  refine freeSlot_eq_one ⟨none, ?_⟩ fun x hx => ?_
  · have hi : i = 0 := hready _ hm
    exact hi ▸ hm
  · cases x with
    | none => exact absurd (hready _ hx) (show ¬ (1 : Slot) = 0 by decide)
    | some s => exact hoff s (List.mem_map.mpr ⟨_, hx, rfl⟩)

theorem card_occupied_running (hready : ∀ e ∈ v.queue none, e.2 = 0)
    (hoff : ∀ s, p ∉ v.procs (some s)) : (occupied v.queue p).card ≤ 1 := by
  have hsub : occupied v.queue p ⊆ {0} := by
    intro i hi
    obtain ⟨x, hx⟩ := mem_occupied.mp hi
    cases x with
    | none => exact Finset.mem_singleton.mpr (hready _ hx)
    | some s => exact absurd (List.mem_map_of_mem hx) (hoff s)
  have hcard := Finset.card_le_card hsub
  rwa [Finset.card_singleton] at hcard

-- The waiters at the heads of the queues are different processes.
theorem Single.hasDescriptor (h : v.Single L (some p)) (hoff : ∀ s, p ∉ v.procs (some s))
    (s : Addr) : v.HasDescriptor s := by
  right
  have hhead : ∀ s, v.queue (some s) ≠ [] → (v.procs (some s)).headD p ∈ v.procs (some s) := by
    intro s hs
    obtain ⟨a, rest, hq⟩ := List.exists_cons_of_ne_nil hs
    rw [procs, hq]
    simp
  have hle : {s | v.queue (some s) ≠ []}.ncard ≤ {a : ProcId | a ≠ p}.ncard := by
    refine Set.ncard_le_ncard_of_injOn (fun s => (v.procs (some s)).headD p) (fun s hs => ?_)
      fun s hs s' hs' heq => ?_
    · intro hc
      exact hoff s (hc ▸ hhead s hs)
    · have hne : some ((v.procs (some s)).headD p) ≠ some p := by
        intro hc
        exact hoff s (Option.some.inj hc ▸ hhead s hs)
      have hm' := hhead s' hs'
      rw [← show (v.procs (some s)).headD p = (v.procs (some s')).headD p from heq] at hm'
      exact Option.some.inj (h.single _ hne _ _ (hhead s hs) hm')
  have hlt : {a : ProcId | a ≠ p}.ncard < (Set.univ : Set ProcId).ncard :=
    Set.ncard_lt_ncard (Set.ssubset_univ_iff.mpr fun hc =>
      (show p ∈ {a : ProcId | a ≠ p} from hc ▸ Set.mem_univ p) rfl)
  rw [Set.ncard_univ, Nat.card_eq_fintype_card, Fintype.card_fin] at hlt
  omega

-- The caller waits nowhere while a LOCK is still to come.
def Late (v : Sched) (p : ProcId) (ops : List Vpop) : Prop :=
  ((∀ s, p ∉ v.procs (some s)) ∧ (locks ops).length ≤ 1) ∨
    (locks ops = [] ∧ ∀ s s', p ∈ v.procs (some s) → p ∈ v.procs (some s') → s = s')

theorem Late.step {o : Vpop} (h : v.Late p (o :: ops)) (b : Bool) :
    (v.semopStep o p b).1.Late p ops := by
  have hmem : ∀ s, p ∈ (v.semopStep o p b).1.procs (some s) →
      p ∈ v.procs (some s) ∨ (s = o.sem ∧ o.op = LOCK) := fun s hs =>
    (mem_semopStep hs).imp id fun hc => ⟨hc.2.1, hc.2.2.1⟩
  rw [Late, locks_cons] at h
  by_cases hl : o.op = LOCK
  · rw [if_pos hl, List.length_cons] at h
    rcases h with ⟨hoff, hlen⟩ | ⟨hnil, -⟩
    · refine Or.inr ⟨List.length_eq_zero_iff.mp (by omega), fun s s' hs hs' => ?_⟩
      rcases hmem s hs with hs | ⟨rfl, -⟩
      · exact absurd hs (hoff s)
      · rcases hmem s' hs' with hs' | ⟨rfl, -⟩
        · exact absurd hs' (hoff s')
        · rfl
    · cases hnil
  · rw [if_neg hl] at h
    have hkeep : ∀ s, p ∈ (v.semopStep o p b).1.procs (some s) → p ∈ v.procs (some s) :=
      fun s hs => (hmem s hs).resolve_right fun hc => hl hc.2
    rcases h with ⟨hoff, hlen⟩ | ⟨hnil, huniq⟩
    · exact Or.inl ⟨fun s hs => hoff s (hkeep s hs), hlen⟩
    · exact Or.inr ⟨hnil, fun s s' hs hs' => huniq s s' (hkeep s hs) (hkeep s' hs')⟩

theorem Late.off {o : Vpop} (h : v.Late p (o :: ops)) (hl : o.op = LOCK) (s : Addr) :
    p ∉ v.procs (some s) := by
  rcases h with ⟨hoff, -⟩ | ⟨hnil, -⟩
  · exact hoff s
  · rw [locks_cons, if_pos hl] at hnil
    cases hnil

theorem Single.semopStep (h : v.Single L (some p)) (hready : ∀ e ∈ v.queue none, e.2 = 0)
    (hr : v.running = some p) {o : Vpop} (hoff : o.op = LOCK → ∀ s, p ∉ v.procs (some s))
    (b : Bool) : (v.semopStep o p b).1.Single L (some p) := by
  have hset : (v.setSem o.sem (toLong (v.sem o.sem + o.op))).Single L (some p) := h.congr rfl
  rcases v.semopStep_cases o p b with ⟨hl, -, hv⟩ | ⟨-, -, hv⟩ | ⟨-, -, hv⟩
  · rw [hv]
    refine Single.insertBlocked (h.congr rfl) (fun _ => ?_) fun hc => absurd rfl hc
    exact freeSlot_running (v := v) hready hr (hoff hl)
  · rw [hv]
    exact hset.wake o.sem
  · rw [hv]
    exact hset

-- Along a tame vector the caller is in order, and everything fits.
theorem Single.semopLoop (h : v.Single L (some p)) (hready : ∀ e ∈ v.queue none, e.2 = 0)
    (hr : v.running = some p) (hlate : v.Late p ops) (b : Bool) :
    (Sched.semopLoop ops p v b).1.Single L (some p) ∧ (Sched.semopLoop ops p v b).1.Late p [] := by
  induction ops generalizing v b with
  | nil => exact ⟨h, hlate⟩
  | cons o ops ih =>
      exact ih (h.semopStep hready hr (fun hl => hlate.off hl) b) (ready_semopStep hready o b)
        (running_semopStep hr o b) (hlate.step b) _

theorem Single.allFit (h : v.Single L (some p)) (hready : ∀ e ∈ v.queue none, e.2 = 0)
    (hr : v.running = some p) (hlate : v.Late p ops) (hs : ∀ o ∈ ops, ¬ L.Reserved o.sem) :
    AllFit ops p v := by
  induction ops generalizing v with
  | nil => trivial
  | cons o ops ih =>
      refine ⟨⟨fun hl _ => ?_, fun _ _ => ?_⟩, ih (h.semopStep hready hr (fun hl => hlate.off hl) _)
        (ready_semopStep hready o _) (running_semopStep hr o _) (hlate.step _)
        fun o' ho' => hs o' (by simp [ho'])⟩
      · have hcard := card_occupied_running hready (hlate.off hl)
        exact ⟨lt_of_le_of_lt hcard (by decide), h.hasDescriptor (hlate.off hl) o.sem⟩
      · exact cleanHead_of_slot (h.second o.sem (hs o (by simp)))

-- Nobody is busy when the caller is on one queue.
theorem Single.settle (h : v.Single L (some p))
    (hp : ∀ x y, p ∈ v.procs x → p ∈ v.procs y → x = y) : v.Single L none where
  second := h.second
  single a _ := by
    by_cases hap : a = p
    · exact hap ▸ hp
    · exact h.single a (by simpa using hap)

theorem Single.occupy (h : v.Single L none) (p : ProcId) : v.Single L (some p) where
  second := h.second
  single a _ := h.single a (by simp)

theorem late_of_stable (h : v.Stable L) (hr : v.running = some p) (hops : (locks ops).length ≤ 1) :
    v.Late p ops :=
  Or.inl ⟨h.running_off hr, hops⟩

theorem Single.vectored (h : v.Single L none) (hs : v.Stable L) (hr : v.running = some p)
    (hsep : Separate L ops) (hops : (locks ops).length ≤ 1) : (v.vectored ops p).Single L none := by
  obtain ⟨hloop, hlate⟩ := (h.occupy p).semopLoop hs.ready hr (late_of_stable hs hr hops) false
  have hstable := hs.vectored hr hsep.1 hsep.2
  have huniq : ∀ s s', p ∈ (Sched.semopLoop ops p v false).1.procs (some s) →
      p ∈ (Sched.semopLoop ops p v false).1.procs (some s') → s = s' := by
    rcases hlate with ⟨hoff, -⟩ | ⟨-, huniq⟩
    · exact fun s s' hm => absurd hm (hoff s)
    · exact huniq
  have hsame : ∀ s, (v.vectored ops p).procs (some s) =
      (Sched.semopLoop ops p v false).1.procs (some s) := by
    intro s
    unfold Sched.vectored
    dsimp only
    split
    · rw [procs_removeReady, if_neg (by simp)]
    · rfl
  have hbusy : (v.vectored ops p).Single L (some p) := by
    unfold Sched.vectored
    dsimp only
    split
    · exact hloop.shrink (dequeue_sublist _ none)
    · exact hloop
  refine hbusy.settle fun x y hx hy => ?_
  cases x with
  | none =>
      cases y with
      | none => rfl
      | some s => exact absurd hy (hstable.tidy.alone p hx s)
  | some s =>
      cases y with
      | none => exact absurd hx (hstable.tidy.alone p hy s)
      | some s' =>
          rw [hsame] at hx hy
          rw [huniq s s' hx hy]

theorem Single.killAll (h : v.Single L busy) (l : List ProcId) : (v.killAll l).Single L busy := by
  induction l generalizing v with
  | nil => exact h
  | cons p l ih => exact ih (h.shrink fun x => List.filter_sublist)

theorem Single.remains (h : v.Single L busy) (p : ProcId) : (v.remains p).Single L busy := by
  obtain ⟨cs, hcs⟩ := v.unlinkChild_frame p
  have hunlink : (v.unlinkChild p).Single L busy := by
    rw [hcs]
    exact h.congr rfl
  exact (hunlink.shrink (dequeue_sublist _ none)).killAll _

theorem Single.move {fork : Prop} {V : Sched → ProcId → List Vpop → Prop} (h : v.Single L none) (hs : v.Stable L)
    (hV : ∀ v p ops, V v p ops → Separate L ops ∧ (locks ops).length ≤ 1)
    (hm : Move L fork V v v') : v'.Single L none := by
  cases hm with
  | quiet hq => exact h.congr hq
  | @create p c rest _ hr hfree =>
      have hoff : ∀ x, c ∉ v.procs x := fun x hx => hs.live x c hx (hfree ▸ by simp)
      exact Single.insertReady (v := v.newborn p c rest) (h.congr rfl) hoff
  | kill hr => exact h.remains _
  | vector hr hv => exact h.vectored hs hr (hV _ _ _ hv).1 (hV _ _ _ hv).2
  | @block p s hr hres _ =>
      have hset : (v.setSem s (toLong (v.sem s - 1))).Single L none := h.congr rfl
      have hoff := hs.tidy.neat.off_removeReady hr
      exact Single.insertBlocked (hset.shrink (dequeue_sublist _ none)) (fun hc => absurd hres hc)
        fun _ => hoff
  | take _ => exact h.congr rfl
  | @signal s _ _ =>
      have hset : (v.setSem s (toLong (v.sem s + 1))).Single L none := h.congr rfl
      exact hset.wake s
  | post _ => exact h.congr rfl
  | requeue hr =>
      have hrem : v.removeReady.Single L none := h.shrink (dequeue_sublist _ none)
      exact hrem.insertReady (hs.tidy.neat.off_removeReady hr)

section Deadlock

-- Whether a live process waits on one of the kernel's semaphores.
def Sleeps (L : Layout) (v : Sched) : Prop :=
  ∃ p, p ∉ v.free ∧ ∃ s, L.Reserved s ∧ p ∈ v.procs (some s)

theorem exists_waiter (hl : v.Lawful L none) {x : QueueId} (hq : v.queue x ≠ []) :
    ∃ p, p ∉ v.free ∧ p ∈ v.procs x := by
  obtain ⟨e, rest, hq⟩ := List.exists_cons_of_ne_nil hq
  have hm : e.1 ∈ v.procs x := List.mem_map.mpr ⟨e, hq ▸ by simp, rfl⟩
  exact ⟨e.1, hl.live x e.1 hm, hm⟩

theorem queue_ne_nil_of_mem {x : QueueId} (hp : p ∈ v.procs x) : v.queue x ≠ [] := by
  intro hq
  rw [procs, hq] at hp
  cases hp

theorem sleeps_iff (hl : v.Lawful L none) :
    v.Sleeps L ↔ v.queue (some L.PSEUDO_CLOCK_SEMAPHORE) ≠ [] ∨
      ∃ d, v.queue (some (L.device d)) ≠ [] := by
  constructor
  · rintro ⟨p, -, s, rfl | ⟨d, rfl⟩, hp⟩
    · exact Or.inl (queue_ne_nil_of_mem hp)
    · exact Or.inr ⟨d, queue_ne_nil_of_mem hp⟩
  · rintro (hq | ⟨d, hq⟩)
    · obtain ⟨p, hp, hm⟩ := exists_waiter hl hq
      exact ⟨p, hp, _, Or.inl rfl, hm⟩
    · obtain ⟨p, hp, hm⟩ := exists_waiter hl hq
      exact ⟨p, hp, _, Or.inr ⟨d, rfl⟩, hm⟩

-- The three ways in which intdeadlock can end.
theorem intdeadlock_cases (v : Sched) (L : Layout) (hl : v.Lawful L none) :
    (v.Sleeps L ∧ (v.intdeadlock L).cpu = .asleep) ∨
      (¬ v.Sleeps L ∧ (∃ s, v.queue (some s) ≠ []) ∧
        (v.intdeadlock L).cpu = .halted "nucleus: deadlock termination") ∨
      ((∀ s, v.queue (some s) = []) ∧
        (v.intdeadlock L).cpu = .halted "nucleus: normal termination") := by
  rw [sleeps_iff hl]
  unfold intdeadlock
  by_cases hp : v.queue (some L.PSEUDO_CLOCK_SEMAPHORE) = []
  · by_cases hd : ∃ d, v.queue (some (L.device d)) ≠ []
    · simp [hp, hd]
    · by_cases hs : ∃ s, v.queue (some s) ≠ []
      · simp [hp, hd, hs]
      · push Not at hs
        simp [hs]
  · simp [hp]

theorem intdeadlock_timer (h : v.queue (some L.PSEUDO_CLOCK_SEMAPHORE) ≠ []) :
    (v.intdeadlock L).intervalTimer = some QUANTUM := by
  unfold intdeadlock
  rw [if_pos h]

-- With nobody ready, everybody waits.
theorem Placed.waits (h : v.Placed none) (hq : v.queue none = []) (hp : p ∉ v.free) :
    ∃ s, p ∈ v.procs (some s) := by
  obtain ⟨x, hx⟩ := h p hp (by simp)
  cases x with
  | none => exact absurd hq (queue_ne_nil_of_mem hx)
  | some s => exact ⟨s, hx⟩

-- What intdeadlock makes of the processes when nobody is ready.
theorem intdeadlock_truth (hl : v.Lawful L none) (hsingle : v.Single L none)
    (hplaced : v.Placed none) (hq : v.queue none = []) :
    ((v.intdeadlock L).cpu = .halted "nucleus: normal termination" ↔ ∀ p, p ∈ v.free) ∧
      ((v.intdeadlock L).cpu = .asleep ↔ v.Sleeps L) ∧
      ((v.intdeadlock L).cpu = .halted "nucleus: deadlock termination" ↔
        (∃ p, p ∉ v.free) ∧ ∀ p ∉ v.free, ∃ s, ¬ L.Reserved s ∧ p ∈ v.procs (some s)) := by
  rcases v.intdeadlock_cases L hl with ⟨hs, hcpu⟩ | ⟨hs, ⟨s, hne⟩, hcpu⟩ | ⟨hs, hcpu⟩
  · obtain ⟨p, hp, s, hres, hm⟩ := hs
    rw [hcpu]
    refine ⟨?_, ?_, ?_⟩
    · simp only [reduceCtorEq, false_iff, not_forall]
      exact ⟨p, hp⟩
    · simp only [true_iff]
      exact ⟨p, hp, s, hres, hm⟩
    · simp only [reduceCtorEq, false_iff, not_and, not_forall]
      refine fun _ => ⟨p, hp, ?_⟩
      rintro ⟨s', hs', hm'⟩
      have heq := Option.some.inj (hsingle.single p (by simp) _ _ hm hm')
      exact hs' (heq ▸ hres)
  · obtain ⟨p, hp, hm⟩ := exists_waiter hl hne
    rw [hcpu]
    refine ⟨?_, ?_, ?_⟩
    · simp only [Cpu.halted.injEq, String.reduceEq, false_iff, not_forall]
      exact ⟨p, hp⟩
    · simpa using hs
    · simp only [true_iff]
      refine ⟨⟨p, hp⟩, fun a ha => ?_⟩
      obtain ⟨s', hs'⟩ := hplaced.waits hq ha
      exact ⟨s', fun hres => hs ⟨a, ha, s', hres, hs'⟩, hs'⟩
  · have hfree : ∀ p, p ∈ v.free := by
      intro p
      by_contra hp
      obtain ⟨s, hm⟩ := hplaced.waits hq hp
      exact queue_ne_nil_of_mem hm (hs s)
    rw [hcpu]
    refine ⟨?_, ?_, ?_⟩
    · simpa using hfree
    · simp only [reduceCtorEq, false_iff]
      rintro ⟨p, hp, -⟩
      exact hp (hfree p)
    · simp only [Cpu.halted.injEq, String.reduceEq, false_iff, not_and]
      rintro ⟨p, hp⟩
      exact absurd (hfree p) hp

end Deadlock

section Admits

-- Every queue is threaded through one entry of p_link.
def Uniform (v : Sched) : Prop := ∀ x, ∃ i, ∀ e ∈ v.queue x, e.2 = i

theorem Uniform.allKillable (h : v.Uniform) (l : List ProcId) : AllKillable l v := by
  induction l generalizing v with
  | nil => trivial
  | cons p l ih =>
      refine ⟨fun s _ => ?_, ih fun x => ?_⟩
      · obtain ⟨i, hi⟩ := h (some s)
        exact cleanHead_of_slot hi
      · obtain ⟨i, hi⟩ := h x
        exact ⟨i, fun e he => hi e (List.mem_filter.mp he).1⟩

theorem Single.uniform (h : v.Single L none) (hl : v.Lawful L none) : v.Uniform := by
  intro x
  cases x with
  | none => exact ⟨0, hl.ready⟩
  | some s =>
      by_cases hs : L.Reserved s
      · exact ⟨0, hl.slot s hs⟩
      · exact ⟨1, h.second s hs⟩

theorem Single.killable (h : v.Single L none) (hl : v.Lawful L none) (p : ProcId)
    (l : List ProcId) : AllKillable l (v.unlinkChild p).removeReady := by
  refine Uniform.allKillable (fun x => ?_) l
  obtain ⟨i, hi⟩ := h.uniform hl x
  refine ⟨i, fun e he => hi e ?_⟩
  obtain ⟨cs, hcs⟩ := v.unlinkChild_frame p
  rw [hcs] at he
  exact (dequeue_sublist v.queue none x).subset he

-- The support level keeps every entry in order.
theorem Single.admits (h : v.Single L none) (hw : v.Wf L) (hU : ∀ s ∈ U, ¬ L.Reserved s)
    (hd : Disciplined U e) : v.Admits L e where
  kill p _ _ := h.killable hw.toLawful p _
  vector p hr hc :=
    have hs : (v.enter e p).Stable L := hw.toStable.congr rfl rfl rfl rfl rfl
    Single.allFit (v := v.enter e p) ((h.occupy p).congr rfl) hs.ready hr
      (late_of_stable hs hr (hd.vector hc).single) ((hd.vector hc).separate hU).1
  clock p hr _ := (h.occupy p).hasDescriptor (hw.toStable.running_off hr) _
  device p hr hc := (hd.device hc).imp fun _ hd =>
    ⟨hd, fun _ => (h.occupy p).hasDescriptor (hw.toStable.running_off hr) _⟩

end Admits

end Sched

end Hoca
