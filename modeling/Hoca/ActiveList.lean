import Hoca.Refine.Asl
import Hoca.Rings
import Hoca.Runs

namespace Hoca

open Links Runs

namespace Kernel

-- The descriptors on the ASL, read off along s_next.
def onASL (k : Kernel) : List SemdId :=
  walk (fun d => (k.semdTable d).s_next) MAXPROC k.semd_h

-- What insertBlocked and outBlocked do to the two lists of descriptors.
inductive AslOp where
  | activate (a : Addr)
  | retire (d : SemdId)

-- With the free list empty there is no descriptor to set the address of.
def aslStep : AslOp → Kernel → Option Kernel
  | .activate a, k =>
      match k.allocateSemaphoreFromFreeList with
      | (k, none) => some k
      | (k, some d) =>
          (k.setSemd d { k.semdTable d with s_semAdd := some a }).insertSemaphoreIntoActiveList d
  | .retire d, k => some (k.removeSemaphoreFromActiveList d)

def Allowed (k : Kernel) : AslOp → Prop
  | .activate a => ∀ d ∈ k.onASL, (k.semdTable d).s_semAdd ≠ some a
  | .retire d => d ∈ k.onASL

instance (k : Kernel) : ∀ op, Decidable (k.Allowed op)
  | .activate a => inferInstanceAs (Decidable (∀ d ∈ k.onASL, (k.semdTable d).s_semAdd ≠ some a))
  | .retire d => inferInstanceAs (Decidable (d ∈ k.onASL))

end Kernel

-- The crossed queues, with the first descriptor for the queue of 1024.
def Sample.parked : Kernel where
  sem s := if s = 1024 then -2 else 0
  deviceCompletionStats _ := ⟨0, 0⟩
  PSEUDO_CLOCK := 0
  intervalTimer := none
  SYS_TRAP_OLD_STATE := (Sample.crossed 0).p_s
  areas _ := (Sample.crossed 0).p_s
  cpu := .asleep
  procTable := Sample.crossed
  procFree_h := none
  semdTable d :=
    if d = 0 then ⟨none, none, some 1024, handle (Sample.crossing (some 1024))⟩
    else ⟨if h : d.val + 1 < MAXPROC then some ⟨d.val + 1, h⟩ else none, none, none, .null⟩
  semdFree_h := some 1
  semd_h := some 0
  readyQueue := handle (Sample.crossing none)

variable {k k' : Kernel} {free : List ProcId} {q : QueueId → List Node} {asl : List Active}
  {spare : List SemdId} {p : ProcId}

-- The two lists hold every descriptor once.
structure Partitioned (k : Kernel) (asl : List Active) (spare : List SemdId) : Prop
    extends Descriptors k.semdTable k.semd_h k.semdFree_h asl spare where
  all : ∀ d, d ∈ asl.map Prod.fst ++ spare

theorem Descriptors.onASL_eq (h : Descriptors k.semdTable k.semd_h k.semdFree_h asl spare) :
    k.onASL = asl.map Prod.fst := by
  refine h.doubly.1.walk_eq ?_
  rw [List.length_map]
  exact Nat.le_of_lt_succ h.length_lt

theorem Descriptors.search (h : Descriptors k.semdTable k.semd_h k.semdFree_h asl spare)
    (a : Addr) : k.getSemaphoreFromActiveList a =
      some ((asl.find? fun e => e.2 = a).map Prod.fst) := by
  cases hf : asl.find? fun e => e.2 = a with
  | none =>
      refine searchASL_absent _ h.doubly.1 h.addr ?_ h.length_lt
      intro ha
      obtain ⟨e, he, rfl⟩ := List.mem_map.mp ha
      simpa using List.find?_eq_none.mp hf e he
  | some e =>
      obtain rfl : e.2 = a := by simpa using List.find?_some hf
      exact searchASL_mem _ h.doubly.1 h.addr (List.Pairwise.imp (fun h => ne_of_lt h) h.sorted)
        (List.mem_of_find?_eq_some hf) h.length_lt

theorem initSemd_partitioned (k : Kernel) : Partitioned k.initSemd [] (List.finRange MAXPROC) where
  doubly := by
    rw [List.map_nil, doubly_nil]
    rfl
  chain := chain_finRange fun a => rfl
  nodup := by
    rw [List.map_nil, List.nil_append]
    exact List.nodup_finRange MAXPROC
  addr e he := by simp at he
  sorted := List.Pairwise.nil
  all d := List.mem_append_right _ (List.mem_finRange d)

theorem Partitioned.activate (h : Partitioned k asl spare) {a : Addr}
    (ha : k.Allowed (.activate a)) :
    ∃ k' asl' spare', k.aslStep (.activate a) = some k' ∧ Partitioned k' asl' spare' := by
  have hnew : a ∉ asl.map Prod.snd := by
    intro hm
    obtain ⟨e, he, rfl⟩ := List.mem_map.mp hm
    refine ha e.1 ?_ (h.addr e he)
    rw [h.onASL_eq]
    exact List.mem_map_of_mem he
  cases spare with
  | nil =>
      have hnone : k.semdFree_h = none := (chain_nil _).mp h.chain
      exact ⟨k, asl, [], by simp [Kernel.aslStep, Kernel.allocateSemaphoreFromFreeList, hnone], h⟩
  | cons d spare =>
      have hfree : k.semdFree_h = some d := (chain_cons.mp h.chain).1
      let k₁ := ({ k with semdFree_h := (k.semdTable d).s_next }.setSemd d
        Kernel.resetSemaphore).setSemd d { Kernel.resetSemaphore with s_semAdd := some a }
      have hk₁ : ∀ d', d' ≠ d → k₁.semdTable d' = k.semdTable d' := by
        intro d' hd'
        simp [k₁, Kernel.setSemd, hd']
      obtain ⟨-, hd, hdesc⟩ := h.toDescriptors.allocate hk₁
      obtain ⟨T, first, front, back, rfl, hput, hdesc', -⟩ := insertSemaphore_spec (k := k₁)
        (e := (d, a)) hdesc hd hnew (by simp [k₁])
      refine ⟨{ k₁ with semdTable := T, semd_h := first }, front ++ (d, a) :: back, spare, ?_,
        hdesc', fun d' => ?_⟩
      · simp only [Kernel.aslStep, Kernel.allocateSemaphoreFromFreeList, hfree, Kernel.setSemd_self]
        exact hput
      · have hall := h.all d'
        simp only [List.map_append, List.map_cons, List.mem_append, List.mem_cons] at hall ⊢
        tauto

theorem Partitioned.retire (h : Partitioned k asl spare) {d : SemdId} (hd : k.Allowed (.retire d)) :
    ∃ k' asl' spare', k.aslStep (.retire d) = some k' ∧ Partitioned k' asl' spare' := by
  have hmem : d ∈ asl.map Prod.fst := by
    rw [← h.onASL_eq]
    exact hd
  obtain ⟨e, he, rfl⟩ := List.mem_map.mp hmem
  obtain ⟨front, back, rfl⟩ := List.append_of_mem he
  obtain ⟨T, first, hrun, hdesc, -⟩ := removeSemaphore_spec h.toDescriptors
  refine ⟨_, front ++ back, e.1 :: spare, congrArg some hrun, hdesc, fun d => ?_⟩
  have hall := h.all d
  simp only [List.map_append, List.map_cons, List.mem_append, List.mem_cons] at hall ⊢
  tauto

-- Over any sequence of insertions and removals the two lists share out semdTable,
-- the ASL is in address order and linked both ways, and the search finds in it
-- exactly what is there.
theorem asl_partitioned (k : Kernel) (ops : List Kernel.AslOp)
    (h : Along Kernel.aslStep Kernel.Allowed ops k.initSemd) :
    ∃ k' asl spare, run Kernel.aslStep ops k.initSemd = some k' ∧ Partitioned k' asl spare ∧
      k'.onASL = asl.map Prod.fst ∧
      (∀ d, (d ∈ k'.onASL ∧ d ∉ spare) ∨ (d ∉ k'.onASL ∧ d ∈ spare)) ∧
      (∀ d ∈ k'.semd_h, (k'.semdTable d).s_prev = none) ∧
      (∀ d ∈ k'.onASL, ∀ d' ∈ k'.onASL,
        (k'.semdTable d).s_next = some d' ↔ (k'.semdTable d').s_prev = some d) ∧
      ∀ a, k'.getSemaphoreFromActiveList a = some ((asl.find? fun e => e.2 = a).map Prod.fst) := by
  obtain ⟨k', hrun, asl, spare, hp⟩ := exists_run (I := fun k => ∃ asl spare, Partitioned k asl spare)
    (fun k op ⟨asl, spare, hp⟩ hop => by
      cases op with
      | activate a => exact (hp.activate hop).imp fun k' ⟨asl', spare', hs, hp'⟩ => ⟨hs, asl', spare', hp'⟩
      | retire d => exact (hp.retire hop).imp fun k' ⟨asl', spare', hs, hp'⟩ => ⟨hs, asl', spare', hp'⟩)
    ⟨[], _, initSemd_partitioned k⟩ h
  have honASL := hp.onASL_eq
  refine ⟨k', asl, spare, hrun, hp, honASL, fun d => ?_, fun d hd => ?_, fun d hd d' hd' => ?_,
    hp.search⟩
  · rw [honASL]
    have hall := List.mem_append.mp (hp.all d)
    have hapart := (List.nodup_append.mp hp.nodup).2.2
    by_cases hd : d ∈ asl.map Prod.fst
    · exact Or.inl ⟨hd, fun hs => hapart d hd d hs rfl⟩
    · exact Or.inr ⟨hd, hall.resolve_left hd⟩
  · exact hp.doubly.prev_first hd
  · rw [honASL] at hd hd'
    exact hp.doubly.next_iff_prev hd hd'

theorem asl_partitioned_parked :
    ∃ k' asl spare, run Kernel.aslStep [.activate 512, .activate 2048, .activate 1024, .retire 2]
        Sample.parked.initSemd = some k' ∧ Partitioned k' asl spare := by
  obtain ⟨k', asl, spare, hrun, hp, -⟩ := asl_partitioned Sample.parked
    [.activate 512, .activate 2048, .activate 1024, .retire 2] (by decide +kernel)
  exact ⟨k', asl, spare, hrun, hp⟩

-- The semaphores in the semaphore vector of a process, and the entries of its
-- p_link on the queue of a semaphore.
def recorded (t : ProcTable) (p : ProcId) (s : Addr) : Finset Slot :=
  Finset.univ.filter fun i => (t p).semvec i = some s

def waiting (q : QueueId → List Node) (p : ProcId) (s : Addr) : Finset Slot :=
  Finset.univ.filter fun i => (p, i) ∈ q (some s)

-- The queues, the ASL and the free list of descriptors in order: as far as
-- `free` does not own them, the processes have recorded what they wait for.
structure InOrder (k : Kernel) (free : List ProcId) (q : QueueId → List Node)
    (asl : List Active) (spare : List SemdId) : Prop extends ActiveList k q asl spare where
  linked : Linked k.procTable free q
  ready : k.readyQueue = handle (q none)
  vector : ∀ p ∉ free, ∀ s, (recorded k.procTable p s).card = (waiting q p s).card

theorem mem_waiting {s : Addr} {i : Slot} : i ∈ waiting q p s ↔ (p, i) ∈ q (some s) := by
  simp [waiting]

-- A process on fewer than SEMMAX queues has room in its semaphore vector.
theorem InOrder.exists_empty (h : InOrder k free q asl spare) (hp : p ∉ free)
    (hc : (occupied q p).card < SEMMAX) : ∃ i, (k.procTable p).semvec i = none := by
  by_contra hfull
  push Not at hfull
  choose f hf using fun i => Option.ne_none_iff_exists'.mp (hfull i)
  have hwaiting : ∀ s, (Finset.univ.filter fun i => f i = s).card = (waiting q p s).card := by
    intro s
    rw [← h.vector p hp s]
    simp only [recorded, hf, Option.some.injEq]
  have hdisjoint : ((Finset.univ.image f : Finset Addr) : Set Addr).PairwiseDisjoint
      (waiting q p) := by
    intro s _ s' _ hne
    refine Finset.disjoint_left.mpr fun i hi hi' => ?_
    have heq := h.linked.apart _ _ _ (mem_waiting.mp hi) (mem_waiting.mp hi')
    exact hne (Option.some.inj heq)
  have hsub : (Finset.univ.image f).biUnion (waiting q p) ⊆ occupied q p := by
    refine Finset.biUnion_subset.mpr fun s _ i hi => ?_
    exact mem_occupied.mpr ⟨some s, mem_waiting.mp hi⟩
  have hcard := Finset.card_eq_sum_card_image f Finset.univ
  rw [Finset.card_univ, Fintype.card_fin, Finset.sum_congr rfl fun s _ => hwaiting s,
    ← Finset.card_biUnion hdisjoint] at hcard
  have hle := Finset.card_le_card hsub
  omega

theorem withSemaphore_eq {v : Slot → Option Addr} (h : ∃ i, v i = none) (s : Addr) :
    ∃ i, v i = none ∧ withSemaphore v s = Function.update v i (some s) := by
  unfold withSemaphore
  cases hf : (List.finRange SEMMAX).find? fun i => v i = none with
  | none =>
      obtain ⟨i, hi⟩ := h
      exact absurd hi (by simpa using List.find?_eq_none.mp hf i (List.mem_finRange i))
  | some i => exact ⟨i, by simpa using List.find?_some hf, rfl⟩

theorem parked_inOrder : InOrder Sample.parked [] Sample.crossing [(0, 1024)]
    ((List.finRange MAXPROC).tail) where
  doubly := ⟨⟨rfl, by decide⟩, by decide⟩
  chain := ⟨rfl, by decide⟩
  nodup := by decide
  addr e he := by
    rw [List.mem_singleton.mp he]
    rfl
  sorted := by decide
  all := by decide
  tail e he := by
    rw [List.mem_singleton.mp he]
    rfl
  complete s := by
    by_cases hs : s = 1024
    · subst hs
      decide
    · simp [Sample.crossing, hs]
  linked := (wellFormed_iff.mp Sample.crossed_wellFormed).1
  ready := rfl
  vector p _ s := by
    by_cases hs : s = 1024
    · subst hs
      revert p
      decide
    · have hrec : recorded Sample.parked.procTable p s = ∅ := by
        ext i
        simp only [recorded, Sample.parked, Sample.crossed, Sample.entry, Finset.mem_filter,
          Finset.mem_univ, true_and, Finset.notMem_empty, iff_false]
        split
        · split
          · simpa using Ne.symm hs
          · simp
        · simp
      have hwait : waiting Sample.crossing p s = ∅ := by
        ext i
        simp [mem_waiting, Sample.crossing, hs]
      rw [hrec, hwait]

-- One more semaphore in the vector and one more entry on its queue.
theorem InOrder.record (h : InOrder k free q asl spare) {s : Addr} {i : Slot} (hp : p ∉ free)
    (hnew : ∀ x, (p, i) ∉ q x) {j : Slot} (hj : (k.procTable p).semvec j = none)
    (hv : ∀ p', (k'.procTable p').semvec = if p' = p
      then Function.update (k.procTable p).semvec j (some s) else (k.procTable p').semvec) :
    ∀ p' ∉ free, ∀ s', (recorded k'.procTable p' s').card =
      (waiting (Function.update q (some s) (q (some s) ++ [(p, i)])) p' s').card := by
  intro p' hp' s'
  have hold := h.vector p' hp' s'
  have hmem : ∀ i', i' ∈ waiting (Function.update q (some s) (q (some s) ++ [(p, i)])) p' s' ↔
      i' ∈ waiting q p' s' ∨ (s' = s ∧ p' = p ∧ i' = i) := by
    intro i'
    simp only [mem_waiting, mem_update_snoc, Option.some.injEq, Prod.mk.injEq]
  have hrec : ∀ j', j' ∈ recorded k'.procTable p' s' ↔
      j' ∈ recorded k.procTable p' s' ∨ (s' = s ∧ p' = p ∧ j' = j) := by
    intro j'
    simp only [recorded, Finset.mem_filter, Finset.mem_univ, true_and, hv p']
    by_cases hpp : p' = p
    · subst hpp
      by_cases hjj : j' = j
      · subst hjj
        simp [hj, eq_comm]
      · simp [hjj]
    · simp [hpp]
  by_cases hsp : s' = s ∧ p' = p
  · obtain ⟨rfl, rfl⟩ := hsp
    have hi : i ∉ waiting q p' s' := fun hi => hnew _ (mem_waiting.mp hi)
    have hj' : j ∉ recorded k.procTable p' s' := by simp [recorded, hj]
    have hwaiting : waiting (Function.update q (some s') (q (some s') ++ [(p', i)])) p' s' =
        insert i (waiting q p' s') := by
      ext i'
      rw [hmem, Finset.mem_insert]
      tauto
    have hrecorded : recorded k'.procTable p' s' = insert j (recorded k.procTable p' s') := by
      ext j'
      rw [hrec, Finset.mem_insert]
      tauto
    rw [hwaiting, hrecorded, Finset.card_insert_of_notMem hi, Finset.card_insert_of_notMem hj',
      hold]
  · have hwaiting : waiting (Function.update q (some s) (q (some s) ++ [(p, i)])) p' s' =
        waiting q p' s' := by
      ext i'
      rw [hmem]
      tauto
    have hrecorded : recorded k'.procTable p' s' = recorded k.procTable p' s' := by
      ext j'
      rw [hrec]
      tauto
    rw [hwaiting, hrecorded, hold]

-- What insertBlocked does to the ASL: nothing, or the first free descriptor gets
-- its place there.
def Activates (asl asl' : List Active) (spare spare' : List SemdId) (s : Addr) : Prop :=
  (s ∈ asl.map Prod.snd ∧ asl' = asl ∧ spare' = spare) ∨
  (s ∉ asl.map Prod.snd ∧ ∃ d front back, spare = d :: spare' ∧ asl = front ++ back ∧
    asl' = front ++ (d, s) :: back)

theorem InOrder.block {s : Addr} {asl' : List Active} {spare' : List SemdId}
    (h : InOrder k free q asl spare) (hp : p ∉ free) (hc : (occupied q p).card < SEMMAX)
    (hb : Blocks k k' free q s p asl' spare') :
    ∃ i j, InOrder k' free (Function.update q (some s) (q (some s) ++ [(p, i)])) asl' spare' ∧
      Taken k.procTable k'.procTable p i ∧ (k.procTable p).semvec j = none ∧
      (∀ p', (k'.procTable p').semvec = if p' = p
        then Function.update (k.procTable p).semvec j (some s) else (k.procTable p').semvec) ∧
      Elsewhere k.procTable k'.procTable q (some s) ∧ Framed free k k' := by
  obtain ⟨-, hnew⟩ := findAvailableQueueSlot_eq h.linked hp hc
  obtain ⟨j, hj, hv⟩ := withSemaphore_eq (h.exists_empty hp hc) s
  have hsemvec := hb.semvec
  rw [hv] at hsemvec
  refine ⟨freeSlot q p, j, ⟨hb.active, hb.linked, ?_, h.record hp hnew hj hsemvec⟩,
    h.linked.taken hp hnew hb.linked hb.framed.table, hj, hsemvec,
    h.linked.elsewhere hb.linked, hb.framed⟩
  rw [hb.ready, h.ready, Function.update_of_ne (by simp)]

-- insertBlocked reports TRUE when the semaphore needs a descriptor and none is
-- free, and then has done nothing.
theorem insertBlocked_ends (h : InOrder k free q asl spare) (s : Addr) (hp : p ∉ free)
    (hc : (k.procTable p).qcount < SEMMAX) :
    ∃ k' full, k.insertBlocked s p = some (k', full) ∧
      (full = true ↔ s ∉ asl.map Prod.snd ∧ k.semdFree_h = none) ∧
      (full = true → k' = k) ∧
      (full = false → ∃ i j asl' spare',
        InOrder k' free (Function.update q (some s) (q (some s) ++ [(p, i)])) asl' spare' ∧
        Taken k.procTable k'.procTable p i ∧ (k.procTable p).semvec j = none ∧
        (∀ p', (k'.procTable p').semvec = if p' = p
          then Function.update (k.procTable p).semvec j (some s) else (k.procTable p').semvec) ∧
        Activates asl asl' spare spare' s ∧
        Elsewhere k.procTable k'.procTable q (some s) ∧ Framed free k k') := by
  have hcard : (occupied q p).card < SEMMAX := by
    rw [h.linked.qcount] at hc
    exact_mod_cast hc
  by_cases hs : s ∈ asl.map Prod.snd
  · obtain ⟨e, he, rfl⟩ := List.mem_map.mp hs
    obtain ⟨k', hrun, hb⟩ := insertBlocked_active h.linked h.toActiveList he hp hcard
    refine ⟨k', false, hrun, by simp [hs], by simp, fun _ => ?_⟩
    obtain ⟨i, j, hi, ht, hj, hv, helse, hf⟩ := h.block hp hcard hb
    exact ⟨i, j, asl, spare, hi, ht, hj, hv, Or.inl ⟨hs, rfl, rfl⟩, helse, hf⟩
  · cases spare with
    | nil =>
        have hnone : k.semdFree_h = none := (chain_nil _).mp h.chain
        have hq : q (some s) = [] := by
          by_contra hne
          exact hs ((h.complete s).mp hne)
        refine ⟨k, true, insertBlocked_full ⟨h.linked, h.ready, asl, [], h.toActiveList⟩ hq hnone,
          by simp [hs, hnone], fun _ => rfl, by simp⟩
    | cons d spare =>
        have hsome : k.semdFree_h = some d := (chain_cons.mp h.chain).1
        obtain ⟨k', front, back, hasl, hrun, hb⟩ :=
          insertBlocked_inactive h.linked h.toActiveList hs hp hcard
        refine ⟨k', false, hrun, by simp [hsome], by simp, fun _ => ?_⟩
        obtain ⟨i, j, hi, ht, hj, hv, helse, hf⟩ := h.block hp hcard hb
        exact ⟨i, j, _, spare, hi, ht, hj, hv, Or.inr ⟨hs, d, front, back, rfl, hasl, rfl⟩, helse, hf⟩

theorem insertBlocked_ends_parked :
    ∃ k' i asl' spare', Sample.parked.insertBlocked 512 2 = some (k', false) ∧
      InOrder k' [] (Function.update Sample.crossing (some 512) [(2, i)]) asl' spare' := by
  obtain ⟨k', full, hrun, hfull, -, hrest⟩ := insertBlocked_ends parked_inOrder 512 (p := 2)
    (by simp) (by decide)
  have hf : full = false := by
    cases full with
    | false => rfl
    | true => exact absurd (hfull.mp rfl).2 (by decide)
  obtain ⟨i, -, asl', spare', hi, -⟩ := hrest hf
  exact ⟨k', i, asl', spare', hf ▸ hrun, hi⟩

end Hoca
