import Hoca.Sched.Move

namespace Hoca

open Forest

-- No operation of the vector takes the word of a semaphore of `U` out of the range.
def Ranged (U : Set Addr) : (Addr → Int) → List Vpop → Prop
  | _, [] => True
  | sem, o :: ops => (o.sem ∈ U → InRange (sem o.sem + o.op)) ∧
      Ranged U (Function.update sem o.sem (toLong (sem o.sem + o.op))) ops

instance decidableRanged {U : Set Addr} [DecidablePred (· ∈ U)] :
    ∀ sem ops, Decidable (Ranged U sem ops)
  | _, [] => isTrue trivial
  | sem, o :: ops =>
      have := decidableRanged (U := U) (Function.update sem o.sem (toLong (sem o.sem + o.op))) ops
      inferInstanceAs (Decidable (_ ∧ _))

theorem Ranged.left {U : Set Addr} {sem : Addr → Int} {ops ops' : List Vpop}
    (h : Ranged U sem (ops ++ ops')) : Ranged U sem ops := by
  induction ops generalizing sem with
  | nil => trivial
  | cons o ops ih => exact ⟨h.1, ih h.2⟩

theorem ranged_of_nodup {U : Set Addr} {sem : Addr → Int} {ops : List Vpop}
    (hnodup : (ops.map Vpop.sem).Nodup) (h : ∀ o ∈ ops, o.sem ∈ U → InRange (sem o.sem + o.op)) :
    Ranged U sem ops := by
  induction ops generalizing sem with
  | nil => trivial
  | cons o ops ih =>
      obtain ⟨hhead, htail⟩ := List.nodup_cons.mp hnodup
      refine ⟨h o List.mem_cons_self, ih htail fun o' ho' hs => ?_⟩
      have hne : o'.sem ≠ o.sem := fun heq => hhead (heq ▸ List.mem_map_of_mem ho')
      rw [Function.update_of_ne hne]
      exact h o' (List.mem_cons_of_mem o ho') hs

namespace Sched

variable {L : Layout} {fork : Prop} {V : Sched → ProcId → List Vpop → Prop} {v v' : Sched} {p : ProcId}
  {s : Addr} {busy : Option ProcId} {R U : Set Addr}

section Flag

-- The flag says that some LOCK found a word that is not positive.
theorem semopLoop_flag (ops : List Vpop) (p : ProcId) (v : Sched) (b : Bool) :
    (semopLoop ops p v b).2 = true ↔ b = true ∨ ∃ pre o post, ops = pre ++ o :: post ∧
      o.op = LOCK ∧ (semopLoop pre p v b).1.sem o.sem ≤ 0 := by
  induction ops generalizing v b with
  | nil => simp [semopLoop]
  | cons o ops ih =>
      rw [semopLoop, ih, semopStep_flag]
      simp only [Bool.or_eq_true, decide_eq_true_eq]
      constructor
      · rintro ((hb | ho) | ⟨pre, o', post, rfl, ho'⟩)
        · exact Or.inl hb
        · exact Or.inr ⟨[], o, ops, rfl, ho⟩
        · refine Or.inr ⟨o :: pre, o', post, rfl, ?_⟩
          rw [semopLoop, semopStep_flag]
          exact ho'
      · rintro (hb | ⟨pre, o', post, heq, ho'⟩)
        · exact Or.inl (Or.inl hb)
        · cases pre with
          | nil =>
              cases heq
              exact Or.inl (Or.inr ho')
          | cons a pre =>
              cases heq
              rw [semopLoop, semopStep_flag] at ho'
              exact Or.inr ⟨pre, o', post, rfl, ho'⟩

theorem semopLoop_append (pre post : List Vpop) (p : ProcId) (v : Sched) (b : Bool) :
    semopLoop (pre ++ post) p v b =
      semopLoop post p (semopLoop pre p v b).1 (semopLoop pre p v b).2 := by
  induction pre generalizing v b with
  | nil => rfl
  | cons o pre ih => exact ih _ _

-- The result does not depend on the flag.
theorem semopLoop_fst (ops : List Vpop) (p : ProcId) (v : Sched) (b b' : Bool) :
    (semopLoop ops p v b).1 = (semopLoop ops p v b').1 := by
  induction ops generalizing v b b' with
  | nil => rfl
  | cons o ops ih =>
      rw [semopLoop, semopLoop, semopStep_fst v o p b b']
      exact ih _ _ _

theorem allFit_append (pre post : List Vpop) (p : ProcId) (v : Sched) :
    AllFit (pre ++ post) p v ↔ AllFit pre p v ∧ AllFit post p (semopLoop pre p v false).1 := by
  induction pre generalizing v with
  | nil => simp [AllFit, semopLoop]
  | cons o pre ih =>
      rw [List.cons_append, AllFit, AllFit, ih, semopLoop, and_assoc,
        semopLoop_fst pre p _ (v.semopStep o p false).2 false]

-- A LOCK that finds no unit puts the caller on the queue.
theorem mem_semopStep_lock {o : Vpop} {b : Bool} (hl : o.op = LOCK) (hz : v.sem o.sem ≤ 0) :
    p ∈ (v.semopStep o p b).1.procs (some o.sem) := by
  rw [semopStep_lock hl hz, procs_insertBlocked, if_pos rfl]
  simp

-- The vector does not leave its caller off readyQueue and on no other queue.
def Keeps (v : Sched) (p : ProcId) (ops : List Vpop) : Prop :=
  (semopLoop ops p v false).2 = true → ∃ s, p ∈ (semopLoop ops p v false).1.procs (some s)

-- A vector that names no semaphore twice keeps its caller.
theorem keeps_of_nodup {ops : List Vpop} (h : (ops.map Vpop.sem).Nodup) (v : Sched) (p : ProcId) :
    v.Keeps p ops := by
  intro hflag
  rcases (semopLoop_flag ops p v false).mp hflag with hb | ⟨pre, o, post, rfl, hl, hz⟩
  · cases hb
  · refine ⟨o.sem, ?_⟩
    rw [List.map_append, List.map_cons, List.nodup_append, List.nodup_cons] at h
    rw [semopLoop_append, semopLoop,
      (semopLoop_frame post p _ _ fun o' ho' heq =>
        h.2.1.1 (List.mem_map.mpr ⟨o', ho', heq.symm⟩)).2]
    exact mem_semopStep_lock hl hz

end Flag

section Placed

-- Every allocated process is on some queue, the one in hand excepted.
def Placed (busy : Option ProcId) (v : Sched) : Prop :=
  ∀ p, p ∉ v.free → some p ≠ busy → ∃ x, p ∈ v.procs x

theorem Placed.congr (h : v.Placed busy) (hq : v'.queue = v.queue) (hfree : v'.free = v.free) :
    v'.Placed busy := by
  intro p hp hb
  rw [hfree] at hp
  simp only [procs, hq]
  exact h p hp hb

-- A process that is on some queue is ready exactly when it waits nowhere.
theorem Placed.ready_iff (h : v.Placed none) (ht : v.Neat) (hp : p ∉ v.free) :
    p ∈ v.procs none ↔ ∀ s, p ∉ v.procs (some s) := by
  constructor
  · exact ht.alone p
  · intro hoff
    obtain ⟨x, hx⟩ := h p hp (by simp)
    cases x with
    | none => exact hx
    | some s => exact absurd hx (hoff s)

theorem Placed.insertReady (h : v.Placed (some p)) : (v.insertReady p).Placed none := by
  intro a ha _
  by_cases hap : a = p
  · subst hap
    refine ⟨none, ?_⟩
    rw [procs_insertReady, if_pos rfl]
    simp
  · obtain ⟨x, hx⟩ := h a ha (by simpa using hap)
    refine ⟨x, ?_⟩
    rw [procs_insertReady]
    split
    · next hn => exact List.mem_append_left _ (hn ▸ hx)
    · exact hx

theorem Placed.insertBlocked (h : v.Placed busy) (s : Addr) (p : ProcId) :
    (v.insertBlocked s p).Placed busy := by
  intro a ha hb
  obtain ⟨x, hx⟩ := h a ha hb
  refine ⟨x, ?_⟩
  rw [procs_insertBlocked]
  split
  · next hn => exact List.mem_append_left _ (hn ▸ hx)
  · exact hx

theorem mem_tail_of_ne {l : List ProcId} {a p : ProcId} (ha : a ∈ l) (hp : l.head? = some p)
    (hne : a ≠ p) : a ∈ l.tail := by
  cases l with
  | nil => cases hp
  | cons b l =>
      cases hp
      exact (List.mem_cons.mp ha).resolve_left hne

theorem Placed.removeReady (h : v.Placed busy) (hr : v.running = some p)
    (hb : busy = none ∨ busy = some p) : v.removeReady.Placed (some p) := by
  intro a ha hap
  obtain ⟨x, hx⟩ := h a ha (by rcases hb with rfl | rfl <;> simp_all)
  refine ⟨x, ?_⟩
  rw [procs_removeReady]
  split
  · next hn =>
    subst hn
    refine mem_tail_of_ne hx ?_ (by simpa using hap)
    rw [procs, List.head?_map]
    exact hr
  · exact hx

-- The process that leaves the queue of a semaphore is ready or still waits.
theorem Placed.wake (h : v.Placed busy) (s : Addr) : (v.wake s).Placed busy := by
  rcases v.wake_cases s with ⟨-, hw⟩ | ⟨p, rest, hq, ⟨y, hy⟩, hw⟩ | ⟨p, rest, hq, hp, hw⟩
  · rwa [hw]
  · rw [hw]
    intro a ha hb
    by_cases hap : a = p
    · exact ⟨y, hap ▸ hy⟩
    · obtain ⟨x, hx⟩ := h a ha hb
      refine ⟨x, ?_⟩
      rw [procs_removeBlocked]
      split
      · next hn =>
        rw [hn] at hx
        exact mem_tail_of_ne hx (by rw [hq]; rfl) hap
      · exact hx
  · rw [hw]
    intro a ha hb
    by_cases hap : a = p
    · refine ⟨none, ?_⟩
      rw [procs_insertReady, if_pos rfl]
      simp [hap]
    · obtain ⟨x, hx⟩ := h a ha hb
      refine ⟨x, ?_⟩
      have hrem : a ∈ (v.removeBlocked s).procs x := by
        rw [procs_removeBlocked]
        split
        · next hn =>
          rw [hn] at hx
          exact mem_tail_of_ne hx (by rw [hq]; rfl) hap
        · exact hx
      rw [procs_insertReady]
      split
      · next hn => exact List.mem_append_left _ (hn ▸ hrem)
      · exact hrem

theorem Placed.semopStep (h : v.Placed busy) (o : Vpop) (b : Bool) :
    (v.semopStep o p b).1.Placed busy := by
  have hset : (v.setSem o.sem (toLong (v.sem o.sem + o.op))).Placed busy := h.congr rfl rfl
  rcases v.semopStep_cases o p b with ⟨-, -, hv⟩ | ⟨-, -, hv⟩ | ⟨-, -, hv⟩
  · rw [hv]
    exact Placed.insertBlocked (h.congr rfl rfl) o.sem p
  · rw [hv]
    exact hset.wake o.sem
  · rw [hv]
    exact hset

theorem Placed.semopLoop (h : v.Placed busy) (ops : List Vpop) (b : Bool) :
    (Sched.semopLoop ops p v b).1.Placed busy :=
  Sched.semopLoop_invariant (I := fun v => v.Placed busy) (fun _ o b h => h.semopStep o b) h ops b

theorem Placed.killOne (h : v.Placed busy) (p : ProcId) : (v.killOne p).Placed busy := by
  intro a ha hb
  simp only [Sched.killOne, List.mem_append, List.mem_singleton, not_or] at ha
  obtain ⟨x, hx⟩ := h a ha.1 hb
  refine ⟨x, ?_⟩
  rw [procs_killOne, List.mem_filter]
  exact ⟨hx, by simpa using ha.2⟩

theorem Placed.killAll (h : v.Placed busy) (l : List ProcId) : (v.killAll l).Placed busy := by
  induction l generalizing v with
  | nil => exact h
  | cons p l ih => exact ih (h.killOne p)

-- Nobody is in hand any more.
theorem Placed.settle (h : v.Placed (some p)) (hp : p ∉ v.free → ∃ x, p ∈ v.procs x) :
    v.Placed none := by
  intro a ha _
  by_cases hap : a = p
  · exact hap ▸ hp (hap ▸ ha)
  · exact h a ha (by simpa using hap)

theorem self_mem_doomed (h : v.StableExcept L R) (hr : v.running = some p) :
    p ∈ progeny v.children MAXPROC p := by
  obtain ⟨path, hfam⟩ := h.rooted
  exact Family.self_mem_progeny (hfam.within (h.live none p (running_mem hr)))

theorem Placed.remains (h : v.Placed none) (hs : v.StableExcept L R) (hr : v.running = some p) :
    (v.remains p).Placed none := by
  obtain ⟨cs, hcs⟩ := v.unlinkChild_frame p
  have hunlink : (v.unlinkChild p).Placed none := by
    rw [hcs]
    exact h.congr rfl rfl
  have hready : (v.unlinkChild p).running = some p := by
    rw [hcs]
    exact hr
  refine ((hunlink.removeReady hready (Or.inl rfl)).killAll _).settle fun hp => ?_
  have hfree := v.free_remains p
  rw [Sched.remains] at hfree
  rw [hfree, List.mem_append] at hp
  exact absurd (Or.inr (self_mem_doomed hs hr)) hp

theorem Placed.vectored (h : v.Placed none) (hr : v.running = some p) {ops : List Vpop}
    (hkeep : v.Keeps p ops) : (v.vectored ops p).Placed none := by
  have hloop := h.semopLoop (p := p) ops false
  have hrun := running_semopLoop hr ops false
  unfold Sched.vectored
  dsimp only
  split
  · next hflag =>
    refine (hloop.removeReady hrun (Or.inl rfl)).settle fun _ => ?_
    obtain ⟨s, hs⟩ := hkeep hflag
    refine ⟨some s, ?_⟩
    rw [procs_removeReady, if_neg (by simp)]
    exact hs
  · exact hloop

theorem Placed.block (h : v.Placed none) (hr : v.running = some p) (s : Addr) :
    (v.block s p).Placed none := by
  have hset : (v.setSem s (toLong (v.sem s - 1))).Placed none := h.congr rfl rfl
  refine ((hset.removeReady hr (Or.inl rfl)).insertBlocked s p).settle fun _ => ⟨some s, ?_⟩
  rw [procs_insertBlocked, if_pos rfl]
  simp

theorem Placed.move (h : v.Placed none) (hs : v.StableExcept L R)
    (hV : ∀ v p ops, V v p ops → v.Keeps p ops)
    (hm : Move L fork V v v') : v'.Placed none := by
  cases hm with
  | quiet hq hfree => exact h.congr hq hfree
  | @create p c rest _ hr hfree =>
      refine Placed.insertReady fun a ha hac => h a (fun hm => ?_) (by simp)
      rw [hfree] at hm
      rcases List.mem_cons.mp hm with rfl | hm
      · exact hac rfl
      · exact ha hm
  | kill hr => exact h.remains hs hr
  | vector hr hv => exact h.vectored hr (hV _ _ _ hv)
  | block hr _ _ => exact h.block hr _
  | take _ => exact h.congr rfl rfl
  | @signal s _ _ =>
      have hset : (v.setSem s (toLong (v.sem s + 1))).Placed none := h.congr rfl rfl
      exact hset.wake s
  | post _ => exact h.congr rfl rfl
  | requeue hr => exact (h.removeReady hr (Or.inl rfl)).insertReady

end Placed

section Counted

-- The word of the semaphore counts its waiters.
def Balanced (v : Sched) (s : Addr) : Prop :=
  ((v.queue (some s)).length : Int) = max 0 (-v.sem s)

theorem Balanced.congr (h : v.Balanced s) (hsem : v'.sem s = v.sem s)
    (hq : (v'.queue (some s)).length = (v.queue (some s)).length) : v'.Balanced s := by
  rw [Balanced, hsem, hq]
  exact h

-- Waiters that leave and are counted leave the word right.
theorem Balanced.of_level (h : v.Balanced s) (hlevel : v'.level s = v.level s)
    (hle : (v'.procs (some s)).length ≤ (v.procs (some s)).length) : v'.Balanced s := by
  rw [length_procs, length_procs] at hle
  rw [level, level] at hlevel
  rw [Balanced] at h ⊢
  omega

theorem Balanced.room (h : v.Balanced s) (hlen : (v.queue (some s)).length ≤ 2 ^ 31) :
    v.Roomy s := by
  intro hne
  have hpos := List.length_pos_iff.mpr hne
  rw [Balanced] at h
  rw [level]
  constructor <;> omega

theorem Balanced.roomy (h : v.Balanced s) (hn : (v.procs (some s)).Nodup) : v.Roomy s := by
  have hlen := hn.length_le_card
  rw [length_procs, Fintype.card_fin] at hlen
  exact h.room (hlen.trans (by decide))

theorem Balanced.remains (h : v.Balanced s) (hn : (v.procs (some s)).Nodup) (p : ProcId) :
    (v.remains p).Balanced s := by
  refine h.of_level (level_remains (h.roomy hn) fun a _ =>
    List.nodup_iff_count_le_one.mp hn a) ?_
  rw [procs_remains, if_neg (by simp)]
  exact List.length_filter_le _ _

theorem sem_semopStep (v : Sched) (o : Vpop) (p : ProcId) (b : Bool) :
    (v.semopStep o p b).1.sem = Function.update v.sem o.sem (toLong (v.sem o.sem + o.op)) := by
  rcases v.semopStep_cases o p b with ⟨-, -, hv⟩ | ⟨-, -, hv⟩ | ⟨-, -, hv⟩
  · rw [hv]
    rfl
  · rw [hv, sem_wake]
    rfl
  · rw [hv]
    rfl

theorem length_semopStep (v : Sched) (o : Vpop) (p : ProcId) (b : Bool) :
    ((v.semopStep o p b).1.queue (some o.sem)).length =
      if o.op = LOCK ∧ v.sem o.sem ≤ 0 then (v.queue (some o.sem)).length + 1
      else if o.op = UNLOCK ∧ v.sem o.sem < 0 then (v.queue (some o.sem)).length - 1
      else (v.queue (some o.sem)).length := by
  rcases v.semopStep_cases o p b with ⟨hl, hz, hv⟩ | ⟨hu, hz, hv⟩ | ⟨hl, hu, hv⟩
  · rw [hv, if_pos ⟨hl, hz⟩, ← length_procs, procs_insertBlocked, if_pos rfl, List.length_append,
      List.length_singleton, length_procs]
    rfl
  · have hl : ¬ (o.op = LOCK ∧ v.sem o.sem ≤ 0) := by
      rw [hu]
      exact fun hc => absurd hc.1 (by decide)
    rw [hv, if_neg hl, if_pos ⟨hu, hz⟩, length_wake, if_pos rfl]
    rfl
  · rw [hv, if_neg hl, if_neg hu]
    rfl

-- P and V keep the account of a semaphore whose word does not overflow.
theorem Balanced.semopStep (h : v.Balanced s) {o : Vpop}
    (ho : o.sem = s → o.op = LOCK ∨ o.op = UNLOCK)
    (hr : o.sem = s → InRange (v.sem o.sem + o.op)) (p : ProcId) (b : Bool) :
    (v.semopStep o p b).1.Balanced s := by
  by_cases hs : s = o.sem
  · subst hs
    rw [Balanced] at h ⊢
    rw [length_semopStep, sem_semopStep, Function.update_self, (hr rfl).toLong_eq]
    have hop : o.op = -1 ∨ o.op = 1 := ho rfl
    have hlock : LOCK = -1 := rfl
    have hunlock : UNLOCK = 1 := rfl
    split
    · omega
    · split <;> omega
  · have hf := v.semopStep_frame o p b hs
    refine h.congr hf.1 ?_
    rw [← length_procs, hf.2, length_procs]

theorem Balanced.semopLoop {ops : List Vpop} (h : v.Balanced s) (hs : s ∈ U)
    (ho : ∀ o ∈ ops, o.sem = s → o.op = LOCK ∨ o.op = UNLOCK) (hr : Ranged U v.sem ops)
    (p : ProcId) (b : Bool) : (Sched.semopLoop ops p v b).1.Balanced s := by
  induction ops generalizing v b with
  | nil => exact h
  | cons o ops ih =>
      refine ih (h.semopStep (ho o (by simp)) (fun heq => hr.1 (heq ▸ hs)) p b)
        (fun o' ho' => ho o' (by simp [ho'])) ?_ _
      rw [sem_semopStep]
      exact hr.2

theorem Balanced.vectored {ops : List Vpop} (h : v.Balanced s) (hs : s ∈ U)
    (ho : ∀ o ∈ ops, o.sem = s → o.op = LOCK ∨ o.op = UNLOCK) (hr : Ranged U v.sem ops)
    (p : ProcId) : (v.vectored ops p).Balanced s := by
  have hloop := h.semopLoop hs ho hr p false
  unfold Sched.vectored
  dsimp only
  split
  · exact hloop.congr rfl (by rw [queue_removeReady])
  · exact hloop

theorem Balanced.move (h : v.Balanced s) (hn : (v.procs (some s)).Nodup) (hres : ¬ L.Reserved s)
    (hs : s ∈ U) (hV : ∀ v p ops, V v p ops →
      (∀ o ∈ ops, o.sem = s → o.op = LOCK ∨ o.op = UNLOCK) ∧ Ranged U v.sem ops)
    (hm : Move L fork V v v') : v'.Balanced s := by
  have hdev : ∀ d, s ≠ L.device d := fun d heq => hres (Or.inr ⟨d, heq⟩)
  cases hm with
  | quiet hq _ _ _ hsem => exact h.congr (by rw [hsem]) (by rw [hq])
  | create _ _ _ => exact h.congr rfl (by rw [queue_newborn])
  | kill _ => exact h.remains hn _
  | vector _ hv => exact h.vectored hs (hV _ _ _ hv).1 (hV _ _ _ hv).2 _
  | @block p s' _ hs' _ =>
      have hne : s ≠ s' := fun heq => hres (heq ▸ hs')
      refine h.congr (by simp [block, Sched.insertBlocked, Sched.removeReady, setSem, hne]) ?_
      rw [block, ← length_procs, procs_insertBlocked, if_neg (by simpa using hne),
        procs_removeReady, if_neg (by simp), length_procs]
      rfl
  | @take d _ => exact h.congr (by simp [setSem, hdev d]) rfl
  | @signal s' hs' _ =>
      have hne : s ≠ s' := fun heq => hres (heq ▸ hs')
      refine h.congr (by rw [sem_wake]; simp [setSem, hne]) ?_
      rw [length_wake, if_neg hne]
      rfl
  | @post d _ => exact h.congr (by simp [setSem, hdev d]) rfl
  | requeue _ =>
      refine h.congr rfl ?_
      simp only [Sched.insertReady]
      rw [enqueue_of_ne (by simp), queue_removeReady]

end Counted

section Manned

variable {e : Event}

-- The semaphore of a device is not further below zero than processes wait for it.
def Manned (L : Layout) (v : Sched) : Prop := ∀ d, 0 ≤ v.level (L.device d)

theorem Manned.answers (h : v.Manned L) (e : Event) : v.Answers L e := by
  intro d _ hsem hnil
  have hl := h d
  rw [level, hsem, ← length_procs, hnil] at hl
  simp at hl

-- The semaphore of a device has room for everybody who waits and for an interrupt.
def DevicesFit (L : Layout) (v : Sched) : Prop := ∀ d, v.level (L.device d) + 1 < 2 ^ 31

instance (L : Layout) (v : Sched) : Decidable (v.DevicesFit L) :=
  inferInstanceAs (Decidable (∀ _, _))

theorem manned_of_level (h : v.Manned L) (hlevel : ∀ d, v'.level (L.device d) = v.level (L.device d)) :
    v'.Manned L := by
  intro d
  rw [hlevel]
  exact h d

theorem Same.manned {off : Option ProcId} (hs : Same off v v') (h : v.Manned L) : v'.Manned L :=
  manned_of_level h fun d => level_of_eq (by rw [hs.sem]) (by rw [hs.queue])

theorem Manned.setSem (h : v.Manned L) (d : Device) {n : Int}
    (hn : 0 ≤ n + (v.queue (some (L.device d))).length) : (v.setSem (L.device d) n).Manned L := by
  intro d'
  by_cases heq : d' = d
  · subst heq
    simpa only [level, Sched.setSem, Function.update_self] using hn
  · have hne : L.device d' ≠ L.device d := fun hc => heq (L.device_injective hc)
    have hd := h d'
    rw [level] at hd ⊢
    simpa only [Sched.setSem, Function.update_of_ne hne] using hd

theorem Manned.vectored {ops : List Vpop} (h : v.Manned L) (hres : ∀ o ∈ ops, ¬ L.Reserved o.sem)
    (p : ProcId) : (v.vectored ops p).Manned L := by
  refine manned_of_level h fun d => Eq.trans ?_ (level_semopLoop (p := p) false fun o ho heq =>
    hres o ho (heq ▸ Or.inr ⟨d, rfl⟩))
  unfold Sched.vectored
  dsimp only
  split
  · exact level_of_eq rfl (queue_removeReady ..)
  · rfl

theorem Manned.clock (h : v.Manned L) (tIn : Int) (old : State) :
    (({ v with PSEUDO_CLOCK := v.PSEUDO_CLOCK + QUANTUM }.preempt tIn old).tick L).Manned L := by
  have hpre : ({ v with PSEUDO_CLOCK := v.PSEUDO_CLOCK + QUANTUM }.preempt tIn old).Manned L := by
    refine manned_of_level h fun d => ?_
    obtain ⟨hq, hsem⟩ := frame_preempt { v with PSEUDO_CLOCK := v.PSEUDO_CLOCK + QUANTUM } tIn old
      (L.device d)
    exact level_of_eq (congrFun hsem _) hq
  unfold Sched.tick
  split
  · split
    · exact hpre
    · refine manned_of_level hpre fun d => ?_
      have hne := L.device_ne_pseudoClock d
      exact (level_signal _ _ _ fun heq => absurd heq hne).trans (if_neg fun hc => hne hc.1)
  · exact hpre

theorem Manned.bounds (h : v.Manned L) (hs : v.StableExcept L R) (hfit : v.DevicesFit L)
    (d : Device) : -2 ^ 31 ≤ v.sem (L.device d) ∧ v.sem (L.device d) + 1 < 2 ^ 31 := by
  have hlen := hs.length_reserved (Or.inr ⟨d, rfl⟩)
  have hd := h d
  have hf := hfit d
  rw [level] at hd hf
  constructor <;> omega

-- An entry keeps it so when the semaphores of the devices have room.
theorem Manned.step (h : v.Manned L) (hs : v.StableExcept L R)
    (hres : e.call = some 3 → ∀ o ∈ e.vector, ¬ L.Reserved o.sem) (hfit : v.DevicesFit L) :
    (v.step L e).Manned L := by
  obtain ⟨w, hw, hsame⟩ := step_yields (e := e) hs.pclock
  refine hsame.manned ?_
  cases hw with
  | idle => exact h
  | @create p c rest _ _ _ =>
      exact manned_of_level h fun d => level_of_eq rfl (queue_newborn (v.enter e p) p c rest _)
  | @kill p _ =>
      refine manned_of_level h fun d => level_remains (fun _ => ?_) fun a _ =>
        hs.count_reserved (Or.inr ⟨d, rfl⟩) a
      have hf := hfit d
      exact ⟨(h.bounds hs hfit d).1, by omega⟩
  | @vector p _ hcall => exact Manned.vectored (v := v.enter e p) h (hres hcall) p
  | @wait p s _ hwaits hz =>
      have hreserved : L.Reserved s := by
        rcases hwaits with ⟨-, rfl⟩ | ⟨-, d, -, rfl⟩
        · exact Or.inl rfl
        · exact Or.inr ⟨d, rfl⟩
      have hlen := hs.length_reserved hreserved
      refine manned_of_level h fun d => level_block _ _ _ _ fun heq => ?_
      have hd := h d
      rw [level, heq] at hd
      constructor <;> omega
  | @take p d _ _ _ hpos => exact h.setSem d (by omega)
  | @deliver d type reg a _ _ _ _ =>
      intro d'
      rw [level, length_wake, sem_wake]
      by_cases heq : L.device d' = L.device d
      · rw [if_pos heq, heq]
        simp [Sched.setSem]
      · rw [if_neg heq]
        have hd := h d'
        rw [level] at hd
        simpa [Sched.setSem, heq, saveState, setContext] using hd
  | @post d type reg _ hd _ =>
      have hl := h d
      rw [level] at hl
      refine Manned.setSem (v := { v with deviceCompletionStats := _ }) h d ?_
      obtain ⟨hle, hlt⟩ := h.bounds hs hfit d
      rw [toLong_of_bounds (by omega) hlt]
      change 0 ≤ _ + ((v.queue (some (L.device d))).length : Int)
      omega
  | clock _ => exact h.clock e.tIn e.old

end Manned

end Sched

end Hoca
