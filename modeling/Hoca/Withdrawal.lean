import Hoca.ActiveList

namespace Hoca

open Links

variable {k k' : Kernel} {t t' t₀ : ProcTable} {free : List ProcId} {q : QueueId → List Node}
  {asl : List Active} {spare : List SemdId} {p : ProcId}

-- The words of the semaphores when those that the process waits for are one higher.
def increased (sem : Addr → Int) (q : QueueId → List Node) (p : ProcId) : Addr → Int :=
  fun s => if p ∈ (q (some s)).map Prod.fst then sem s + 1 else sem s

-- An int holds them.
def Raisable (sem : Addr → Int) (q : QueueId → List Node) (p : ProcId) : Prop :=
  ∀ s, p ∈ (q (some s)).map Prod.fst → InRange (sem s + 1)

theorem raise_eq_increased {sem : Addr → Int} : raise sem q p = increased sem q p ↔ Raisable sem q p := by
  constructor
  · intro h s hs
    have heq := congrFun h s
    simp only [raise, increased, if_pos hs] at heq
    exact heq ▸ toLong_bounds (sem s + 1)
  · intro h
    funext s
    unfold raise increased
    split
    · next hs => exact (h s hs).toLong_eq
    · rfl

-- outBlocked takes the process off all its semaphores, and a second call finds
-- nothing to do.
def Withdraws (k : Kernel) (free : List ProcId) (q : QueueId → List Node) (asl : List Active)
    (p : ProcId) : Prop :=
  ∃ k' spare', k.outBlocked p = some (k', if held q p asl = [] then none else some p) ∧
    InOrder k' free (expel q p) (staying q p asl) spare' ∧
    Framed free { k with sem := increased k.sem q p } k' ∧
    (∀ s i, (p, i) ∈ q (some s) → i ∉ used k'.procTable p) ∧
    (∀ s, p ∈ (q (some s)).map Prod.fst → recorded k'.procTable p s = ∅) ∧
    (∀ p', (k'.procTable p').qcount = if p' = p
      then (k.procTable p').qcount - (held q p asl).length else (k.procTable p').qcount) ∧
    k'.outBlocked p = some (k', none)

section Absent

-- A process that is on no queue of the ASL.
theorem outBlockedLoop_none {front todo : List Active} (hlinked : Linked k.procTable free q)
    (ha : ActiveList k q (front ++ todo) spare)
    (hp : ∀ e ∈ todo, p ∉ (q (some e.2)).map Prod.fst) (fuel : ℕ) (removed : Bool)
    (hfuel : todo.length < fuel) :
    Kernel.outBlockedLoop p fuel k (todo.map Prod.fst).head? removed = some (k, removed) := by
  induction todo generalizing front fuel with
  | nil =>
      cases fuel with
      | zero => simp at hfuel
      | succ fuel => rfl
  | cons e todo ih =>
      cases fuel with
      | zero => simp at hfuel
      | succ fuel =>
          have hrun := outProc_absent hlinked (some e.2) (hp e (by simp))
          rw [← ha.tail e (by simp)] at hrun
          rw [List.map_cons, List.head?_cons, outBlockedLoop_absent (ha.addr e (by simp)) hrun,
            ha.next_cell]
          have hnext : ActiveList k q ((front ++ [e]) ++ todo) spare := by
            rw [List.append_assoc, List.singleton_append]
            exact ha
          exact ih hnext (fun e' he' => hp e' (by simp [he'])) fuel (by simpa using hfuel)

theorem outBlocked_none (hlinked : Linked k.procTable free q) (ha : ActiveList k q asl spare)
    (hp : ∀ s, p ∉ (q (some s)).map Prod.fst) : k.outBlocked p = some (k, none) := by
  have hfirst : k.semd_h = (asl.map Prod.fst).head? := ha.doubly.1.1
  have hwhole : ActiveList k q ([] ++ asl) spare := ha
  have hloop := outBlockedLoop_none hlinked hwhole (fun e _ => hp e.2) (MAXPROC + 1) false
    ha.length_lt
  simp only [Kernel.outBlocked, hfirst, hloop, Option.bind_eq_bind, Option.bind_some,
    Bool.false_eq_true, if_false]

end Absent

section Vector

theorem withoutSemaphore_recorded {v : Slot → Option Addr} (s s' : Addr) :
    (Finset.univ.filter fun i => withoutSemaphore v s i = some s').card =
      (Finset.univ.filter fun i => v i = some s').card - if s' = s then 1 else 0 := by
  unfold withoutSemaphore
  cases hf : (List.finRange SEMMAX).find? fun i => v i = some s with
  | none =>
      have hnone : ∀ i, v i ≠ some s := fun i => by
        simpa using List.find?_eq_none.mp hf i (List.mem_finRange i)
      by_cases hs : s' = s
      · subst hs
        simp [hnone]
      · simp [hs]
  | some j =>
      have hj : v j = some s := by simpa using List.find?_some hf
      by_cases hs : s' = s
      · subst hs
        have herase : (Finset.univ.filter fun i => Function.update v j none i = some s') =
            (Finset.univ.filter fun i => v i = some s').erase j := by
          ext i
          by_cases hi : i = j
          · simp [hi]
          · simp [hi]
        rw [herase, Finset.card_erase_of_mem (by simp [hj]), if_pos rfl]
      · have hsame : (Finset.univ.filter fun i => Function.update v j none i = some s') =
            Finset.univ.filter fun i => v i = some s' := by
          ext i
          by_cases hi : i = j
          · subst hi
            simpa [hj] using Ne.symm hs
          · simp [hi]
        rw [hsame, if_neg hs, Nat.sub_zero]

theorem foldl_withoutSemaphore_recorded {v : Slot → Option Addr} (S : List Addr) (s : Addr) :
    (Finset.univ.filter fun i => S.foldl withoutSemaphore v i = some s).card =
      (Finset.univ.filter fun i => v i = some s).card - S.count s := by
  induction S generalizing v with
  | nil => rw [List.foldl_nil, List.count_nil, Nat.sub_zero]
  | cons a S ih =>
      rw [List.foldl_cons, ih, withoutSemaphore_recorded, List.count_cons]
      by_cases hs : s = a
      · subst hs
        simp only [if_true, beq_self_eq_true]
        omega
      · have hne : ¬ (a == s) = true := by simpa using Ne.symm hs
        rw [if_neg hs, if_neg hne]
        omega

-- A process that is once on a queue waits there at one entry.
theorem waiting_once {s : Addr} (h : Once p (q (some s))) :
    (waiting q p s).card = if p ∈ (q (some s)).map Prod.fst then 1 else 0 := by
  by_cases hp : p ∈ (q (some s)).map Prod.fst
  · obtain ⟨⟨a, i⟩, he, rfl⟩ := List.mem_map.mp hp
    obtain ⟨front, back, hq⟩ := List.append_of_mem he
    rw [hq] at h
    have hsingle : waiting q a s = {i} := by
      ext j
      rw [mem_waiting, hq, Finset.mem_singleton]
      constructor
      · intro hm
        by_contra hj
        have hother : (a, j) ∈ front ++ back := by
          simp only [List.mem_append, List.mem_cons, Prod.mk.injEq, true_and] at hm ⊢
          tauto
        exact h.absent (a, j) hother rfl
      · rintro rfl
        simp
    rw [if_pos hp, hsingle, Finset.card_singleton]
  · have hempty : waiting q p s = ∅ := by
      ext j
      rw [mem_waiting]
      simp only [Finset.notMem_empty, iff_false]
      exact fun hm => hp (List.mem_map_of_mem hm)
    rw [if_neg hp, hempty, Finset.card_empty]

end Vector

section Sound

theorem mem_expel {x : QueueId} {e : Node} :
    e ∈ expel q p x ↔ e ∈ q x ∧ (x ≠ none → e.1 ≠ p) := by
  cases x <;> simp [expel]

theorem InOrder.held_count (h : InOrder k free q asl spare) (p : ProcId) (s : Addr) :
    ((held q p asl).map Prod.snd).count s = if p ∈ (q (some s)).map Prod.fst then 1 else 0 := by
  have hnodup : (asl.map Prod.snd).Nodup := List.Pairwise.imp (fun h => ne_of_lt h) h.sorted
  have hsub : ((held q p asl).map Prod.snd).Nodup :=
    hnodup.sublist ((List.filter_sublist).map Prod.snd)
  have hmem : s ∈ (held q p asl).map Prod.snd ↔ p ∈ (q (some s)).map Prod.fst := by
    constructor
    · intro hs
      obtain ⟨e, he, rfl⟩ := List.mem_map.mp hs
      simpa using (List.mem_filter.mp he).2
    · intro hp
      obtain ⟨e, he, rfl⟩ := List.mem_map.mp (h.mem_of_queued hp)
      exact List.mem_map_of_mem (List.mem_filter.mpr ⟨he, by simpa using hp⟩)
  rw [hsub.count]
  simp only [hmem]

-- outBlocked of a process that it can take out of every queue.
theorem InOrder.withdraws (h : InOrder k free q asl spare) (hone : ∀ s, Once p (q (some s)))
    (hrem : ∀ s, Removable p (q (some s))) (hraise : Raisable k.sem q p) :
    Withdraws k free q asl p := by
  obtain ⟨k', spare', hrun, hl⟩ := outBlocked_leaves (p := p) h.linked h.toActiveList
    (fun e _ => hone e.2) (fun e _ => hrem e.2)
  have hlinked := hl.linked
  have hactive := hl.active
  have hframed := hl.framed
  rw [h.expelFrom_eq] at hlinked hactive
  rw [h.raiseFrom_eq, raise_eq_increased.mpr hraise] at hframed
  have hgone : ∀ s, p ∉ (expel q p (some s)).map Prod.fst := by
    intro s hp
    obtain ⟨e, he, rfl⟩ := List.mem_map.mp hp
    exact (mem_expel.mp he).2 (by simp) rfl
  have hself : ∀ s, recorded k'.procTable p s = ∅ ∨ p ∈ free := by
    intro s
    by_cases hp : p ∈ free
    · exact Or.inr hp
    · refine Or.inl (Finset.card_eq_zero.mp ?_)
      have hcount := foldl_withoutSemaphore_recorded (v := (k.procTable p).semvec)
        ((held q p asl).map Prod.snd) s
      have hold := h.vector p hp s
      rw [waiting_once (hone s)] at hold
      simp only [recorded] at hold ⊢
      rw [hl.semvec p, if_pos rfl, hcount, hold, h.held_count, Nat.sub_self]
  have hvector : ∀ p' ∉ free, ∀ s,
      (recorded k'.procTable p' s).card = (waiting (expel q p) p' s).card := by
    intro p' hp' s
    by_cases hpp : p' = p
    · subst hpp
      have hnone : waiting (expel q p') p' s = ∅ := by
        ext i
        rw [mem_waiting]
        simp only [Finset.notMem_empty, iff_false]
        exact fun hm => hgone s (List.mem_map_of_mem hm)
      rw [(hself s).resolve_right hp', hnone]
    · have hsame : waiting (expel q p) p' s = waiting q p' s := by
        ext i
        rw [mem_waiting, mem_waiting, mem_expel]
        simp [hpp]
      rw [hsame, ← h.vector p' hp' s]
      simp only [recorded, hl.semvec p', if_neg hpp]
  refine ⟨k', spare', hrun, ⟨hactive, hlinked, hl.ready.trans h.ready, hvector⟩, hframed, ?_, ?_,
    hl.qcount, ?_⟩
  · intro s i hi
    have hp : p ∉ free := h.linked.allocated hi
    rw [hlinked.used_eq hp, mem_occupied]
    rintro ⟨x, hx⟩
    have hold := mem_expel.mp hx
    have heq := h.linked.apart _ _ _ hold.1 hi
    exact hold.2 (by simp [heq]) rfl
  · intro s hs
    refine (hself s).resolve_right fun hf => ?_
    obtain ⟨⟨a, i⟩, he, rfl⟩ := List.mem_map.mp hs
    exact h.linked.allocated he hf
  · exact outBlocked_none hlinked hactive hgone

end Sound

section Damage

-- The table while outBlocked walks on: on the queues ahead only links of the
-- process itself can have been cleared.
structure Torn (t₀ t : ProcTable) (q : QueueId → List Node) (p : ProcId) (todo : List Addr) :
    Prop where
  others : ∀ s ∈ todo, ∀ e ∈ q (some s), e.1 ≠ p → t.link e.1 e.2 = t₀.link e.1 e.2
  own : ∀ i, t.link p i = t₀.link p i ∨ t.link p i = .null

-- What the loop can no longer put right: more links in use than counted, the
-- link on readyQueue lost, a link lost on a queue ahead, or another process left
-- with no successor or with p as its successor on a queue behind.
inductive Spoiled (t : ProcTable) (q : QueueId → List Node) (p : ProcId) (todo : List Addr) : Prop
  | count (h : (t p).qcount < (used t p).card)
  | ready (i : Slot) (hi : (p, i) ∈ q none) (h : t.link p i = .null)
  | ahead (s : Addr) (i : Slot) (hs : s ∈ todo) (hi : (p, i) ∈ q (some s))
      (h : t.link p i = .null)
  | astray (s : Addr) (e : Node) (hs : s ∉ todo) (he : e ∈ q (some s)) (hp : e.1 ≠ p)
      (h : (t.link e.1 e.2).next = none ∨ (t.link e.1 e.2).next = some p)

variable {todo : List Addr} {s : Addr}

theorem Torn.congr (h : Torn t₀ t q p todo) (hlink : ∀ p i, t'.link p i = t.link p i) :
    Torn t₀ t' q p todo where
  others s hs e he hp := (hlink e.1 e.2).trans (h.others s hs e he hp)
  own i := by
    rw [hlink]
    exact h.own i

theorem Spoiled.congr (h : Spoiled t q p todo) (hlink : ∀ p i, t'.link p i = t.link p i)
    (hcount : ∀ p, (t' p).qcount = (t p).qcount) : Spoiled t' q p todo := by
  have hused : used t' p = used t p := by
    ext i
    rw [mem_used, mem_used, hlink]
  cases h with
  | count h => exact .count (by rwa [hused, hcount])
  | ready i hi h => exact .ready i hi ((hlink p i).trans h)
  | ahead s i hs hi h => exact .ahead s i hs hi ((hlink p i).trans h)
  | astray s e hs he hp h => exact .astray s e hs he hp (by rwa [hlink])

-- Nothing of it fits the queues without the process.
theorem Spoiled.not_linked (h : Spoiled t q p []) (hp : p ∉ free) : ¬ Linked t free (expel q p) := by
  intro hlinked
  cases h with
  | count h =>
      rw [hlinked.qcount, hlinked.used_eq hp] at h
      exact lt_irrefl _ h
  | ready i hi h =>
      refine hlinked.next_ne (x := none) (e := (p, i)) (mem_expel.mpr ⟨hi, by simp⟩) ?_
      rw [h]
      rfl
  | ahead s i hs hi h => simp at hs
  | astray s e hs he hne h =>
      obtain ⟨b, hb, hn⟩ := (hlinked.ring (some s)).exists_next (mem_expel.mpr ⟨he, fun _ => hne⟩)
      rw [ProcTable.link_eq_of_succ hn] at h
      have hbp := (mem_expel.mp hb).2 (by simp)
      rcases h with h | h
      · exact ProcLink.of_some_next_ne b h
      · exact hbp (Option.some.inj h)

-- The walk of outProc over nodes that only lead to each other.
theorem outProcLoop_within {nodes : List Node} {head : ProcId}
    (hnext : ∀ e ∈ nodes, e.1 ≠ p → ∃ b ∈ nodes, t.link e.1 e.2 = .of (some b)) {fuel : ℕ}
    {e : Node} (he : e ∈ nodes) (hp : e.1 ≠ p) {c : Cursor}
    (hrun : outProcLoop t p head fuel e.1 e.2 = some (some c)) :
    (c.prevProc, c.prev_queue_idx) ∈ nodes ∧ c.prevProc ≠ p ∧ c.currProc = p ∧
      (p, c.curr_queue_idx) ∈ nodes := by
  induction fuel generalizing e with
  | zero => cases hrun
  | succ fuel ih =>
      obtain ⟨b, hb, hlink⟩ := hnext e he hp
      simp only [outProcLoop, hlink, ProcLink.of, Option.bind_eq_bind, Option.bind_some] at hrun
      split at hrun
      · cases hrun
      · split at hrun
        · next hbp =>
            simp only [Option.some.injEq] at hrun
            subst hrun
            refine ⟨he, hp, hbp, ?_⟩
            rw [← hbp]
            exact hb
        · next hbp => exact ih hb hbp hrun

-- outProc on a queue where links of the process may be missing: it writes no
-- link of another process elsewhere, and cannot mend the queue.
theorem outProc_torn {nodes : List Node} {tp' : ProcLink} {out : Option ProcId}
    (hring : Ring t₀.succ nodes) (hone : Once p nodes)
    (hothers : ∀ e ∈ nodes, e.1 ≠ p → t.link e.1 e.2 = t₀.link e.1 e.2)
    (hown : ∀ i, t.link p i = t₀.link p i ∨ t.link p i = .null)
    (hrun : outProc t (handle nodes) p = some (t', tp', out)) :
    (∀ e ∉ nodes, e.1 ≠ p → t'.link e.1 e.2 = t.link e.1 e.2) ∧
    ∀ i, (p, i) ∈ nodes → t.link p i = .null → ∃ e ∈ nodes, e.1 ≠ p ∧
      ((t'.link e.1 e.2).next = none ∨ (t'.link e.1 e.2).next = some p) := by
  cases nodes using List.reverseRecOn with
  | nil =>
      obtain ⟨rfl, -⟩ : t = t' ∧ _ := by simpa [outProc] using hrun
      exact ⟨fun _ _ _ => rfl, fun i hi => by simp at hi⟩
  | append_singleton front last =>
      generalize hnodes : front ++ [last] = nodes at hring hone hothers hrun ⊢
      have hhandle : handle nodes = ⟨some last.2, some last.1⟩ := by
        rw [← hnodes, handle_snoc]
        rfl
      have hlast : last ∈ nodes := by simp [← hnodes]
      have hring₀ : ∀ e ∈ nodes, ∃ b ∈ nodes, t₀.link e.1 e.2 = .of (some b) := by
        intro e he
        obtain ⟨b, hb, hn⟩ := hring.exists_next he
        exact ⟨b, hb, ProcTable.link_eq_of_succ hn⟩
      have hnext : ∀ e ∈ nodes, e.1 ≠ p → ∃ b ∈ nodes, t.link e.1 e.2 = .of (some b) := by
        intro e he hp
        rw [hothers e he hp]
        exact hring₀ e he
      -- a link that was read there was not cleared
      have hhead : ∀ n i, t.link last.1 last.2 = ⟨some i, some n⟩ → (n, i) ∈ nodes := by
        intro n i hl
        have hkeep : t.link last.1 last.2 = t₀.link last.1 last.2 := by
          by_cases hp : last.1 = p
          · refine hp ▸ (hown last.2).resolve_right fun hnull => ?_
            rw [hp, hnull] at hl
            cases hl
          · exact hothers last hlast hp
        obtain ⟨⟨n', i'⟩, hb, hl₀⟩ := hring₀ last hlast
        rw [hkeep, hl₀] at hl
        cases hl
        exact hb
      simp only [outProc, hhandle, Option.bind_eq_bind, Option.bind_some] at hrun
      cases hl : t.link last.1 last.2 with
      | mk index next =>
          rw [hl] at hrun
          split at hrun
          · next hn =>
              obtain rfl : next = some p := hn
              simp only [removeProc, hl, Option.bind_eq_bind, Option.bind_some,
                Option.some.injEq] at hrun
              split at hrun
              · next hp =>
                  simp only [Option.some.injEq, Prod.mk.injEq] at hrun
                  obtain ⟨rfl, -⟩ := hrun
                  refine ⟨fun e _ hne => ?_, fun i hi hnull => ?_⟩
                  · rw [ProcTable.link_addQcount, ProcTable.link_setLink_of_ne]
                    exact fun heq => hne ((congrArg Prod.fst heq).trans hp.symm)
                  · obtain rfl : i = last.2 := hone.unique hi (by rw [hp]; exact hlast)
                    rw [hp, hl] at hnull
                    cases hnull
              · next hp =>
                  obtain ⟨i₀, rfl, hwrite⟩ := Option.bind_eq_some_iff.mp hrun
                  simp only [Option.some.injEq, Prod.mk.injEq] at hwrite
                  obtain ⟨rfl, -⟩ := hwrite
                  refine ⟨fun e he hne => ?_, fun i hi hnull => ⟨last, hlast, Ne.symm hp, Or.inl ?_⟩⟩
                  · refine ProcTable.link_unhook last _ ?_ ?_
                    · exact fun heq => hne (congrArg Prod.fst heq)
                    · exact fun heq => he (heq ▸ hlast)
                  · obtain rfl : i = i₀ := hone.unique hi (hhead p i₀ hl)
                    have hne : last ≠ (p, last.2) := fun heq => hp (congrArg Prod.fst heq).symm
                    rw [ProcTable.link_unhook_pred last _ hne, hnull]
                    rfl
          · next hn =>
              obtain ⟨n, rfl, hindex⟩ := Option.bind_eq_some_iff.mp hrun
              obtain ⟨i₀, rfl, hwalk⟩ := Option.bind_eq_some_iff.mp hindex
              obtain ⟨c, hc, hwrite⟩ := Option.bind_eq_some_iff.mp hwalk
              have hnp : n ≠ p := fun heq => hn (by rw [heq])
              cases c with
              | none =>
                  simp only [Option.some.injEq, Prod.mk.injEq] at hwrite
                  obtain ⟨rfl, -⟩ := hwrite
                  refine ⟨fun _ _ _ => rfl, fun i hi hnull => ?_⟩
                  obtain ⟨front', back, hsplit⟩ := List.append_of_mem hi
                  rw [hsplit] at hone
                  have habsent := hone.absent
                  cases front' using List.reverseRecOn with
                  | nil =>
                      -- the process heads the queue: its predecessor is the last node
                      have hfirst : t₀.succ last = some (p, i) := by
                        rw [← hnodes] at hring hsplit
                        have hr := hring.next_last
                        rw [hsplit] at hr
                        exact hr
                      have hl₀ := ProcTable.link_eq_of_succ hfirst
                      by_cases hp : last.1 = p
                      · obtain rfl : i = last.2 := (hsplit ▸ hone).unique hi (by rw [← hp]; exact hlast)
                        rw [hp, hnull] at hl
                        cases hl
                      · rw [← hothers last hlast hp, hl] at hl₀
                        exact absurd (congrArg ProcLink.next hl₀) (by simpa using hnp)
                  | append_singleton front' pred =>
                      have hpred : pred ∈ nodes := by simp [hsplit]
                      have hne : pred.1 ≠ p := habsent pred (by simp)
                      refine ⟨pred, hpred, hne, Or.inr ?_⟩
                      have hr := hring
                      rw [hsplit, List.append_assoc, List.singleton_append] at hr
                      rw [hothers pred hpred hne, ProcTable.link_eq_of_succ (Leads.next_mid hr)]
                      rfl
              | some c =>
                  simp only [Option.some.injEq, Prod.mk.injEq] at hwrite
                  obtain ⟨rfl, -⟩ := hwrite
                  obtain ⟨hprev, hpp, -, hcurr⟩ :=
                    outProcLoop_within hnext (e := (n, i₀)) (hhead n i₀ hl) hnp hc
                  refine ⟨fun e he hne => ?_, fun i hi hnull => ⟨_, hprev, hpp, Or.inl ?_⟩⟩
                  · refine ProcTable.link_unhook (c.prevProc, c.prev_queue_idx) _ ?_ ?_
                    · exact fun heq => hne (congrArg Prod.fst heq)
                    · exact fun heq => he (heq ▸ hprev)
                  · obtain rfl : i = c.curr_queue_idx := hone.unique hi hcurr
                    rw [ProcTable.link_unhook_pred (c.prevProc, c.prev_queue_idx) _
                      (by simp [hpp]), hnull]
                    rfl

-- Another round leaves the damage.
theorem Spoiled.next {tp' : ProcLink} {out : Option ProcId} (h₀ : Linked t₀ free q)
    (hone : Once p (q (some s))) (hs : s ∉ todo) (ht : Torn t₀ t q p (s :: todo))
    (h : Spoiled t q p (s :: todo))
    (hrun : outProc t (handle (q (some s))) p = some (t', tp', out)) :
    Torn t₀ t' q p todo ∧ Spoiled t' q p todo := by
  obtain ⟨hframe, hlost⟩ := outProc_torn (h₀.ring (some s)) hone (ht.others s (by simp)) ht.own hrun
  have hclear : ∀ i, t'.link p i = t.link p i ∨ t'.link p i = .null := by
    intro i
    rcases outProc_own hrun with ⟨-, rfl, -⟩ | ⟨-, ⟨j, hj⟩, -⟩
    · exact Or.inl rfl
    · rw [hj i]
      split
      · exact Or.inr rfl
      · exact Or.inl rfl
  have hnull : ∀ i, t.link p i = .null → t'.link p i = .null := by
    intro i hi
    exact (hclear i).elim (fun h => h.trans hi) id
  -- the nodes of the other queues
  have helse : ∀ s' ≠ s, ∀ e ∈ q (some s'), e.1 ≠ p → t'.link e.1 e.2 = t.link e.1 e.2 := by
    intro s' hne e he hp
    refine hframe e (fun hm => hne ?_) hp
    exact Option.some.inj (h₀.apart _ _ _ he hm)
  refine ⟨⟨fun s' hs' e he hp => ?_, fun i => ?_⟩, ?_⟩
  · have hne : s' ≠ s := fun heq => hs (heq ▸ hs')
    exact (helse s' hne e he hp).trans (ht.others s' (by simp [hs']) e he hp)
  · rcases hclear i with h | h
    · rw [h]
      exact ht.own i
    · exact Or.inr h
  · cases h with
    | count h =>
        refine .count ?_
        rcases outProc_own hrun with ⟨-, rfl, -⟩ | ⟨-, ⟨j, hj⟩, hcount⟩
        · exact h
        · have hused : used t' p = (used t p).erase j := by
            ext i
            rw [Finset.mem_erase, mem_used, mem_used, hj i]
            by_cases hi : i = j
            · simp [hi]
            · simp [hi]
          have hcard := Finset.pred_card_le_card_erase (a := j) (s := used t p)
          rw [hused, hcount, if_pos rfl]
          omega
    | ready i hi h => exact .ready i hi (hnull i h)
    | ahead s' i hs' hi h =>
        rcases List.mem_cons.mp hs' with rfl | hs'
        · obtain ⟨e, he, hp, hlink⟩ := hlost i hi h
          exact .astray s' e hs he hp hlink
        · exact .ahead s' i hs' hi (hnull i h)
    | astray s' e hs' he hp h =>
        have hne : s' ≠ s := fun heq => hs' (by simp [heq])
        refine .astray s' e (fun hm => hs' (by simp [hm])) he hp ?_
        rwa [helse s' hne e he hp]

-- The head goes, and a link of it other than the one on this queue is cleared.
theorem Spoiled.of_head {i j : Slot} {b : ProcId} (h : Linked t free q)
    (hone : Once p (q (some s))) (hi : (p, i) ∈ q (some s)) (hmem : (b, j) ∈ q (some s))
    (hij : i ≠ j) (hs : s ∉ todo)
    (hall : ∀ s', p ∈ (q (some s')).map Prod.fst → s' = s ∨ s' ∈ todo)
    (hcleared : t' = ((t.setLink b j (t.link p i)).setLink p j .null).addQcount p (-1)) :
    Torn t t' q p todo ∧ Spoiled t' q p todo := by
  have hbp : b ≠ p := by
    rintro rfl
    exact hij (hone.unique hi hmem)
  have hlink : ∀ e, e ≠ (b, j) → e ≠ (p, j) → t'.link e.1 e.2 = t.link e.1 e.2 := by
    intro e hb hp
    rw [hcleared, ProcTable.link_unhook (b, j) _ hp hb]
  have hnull : t'.link p j = .null := by
    rw [hcleared, ProcTable.link_addQcount, ProcTable.link_setLink_self]
  refine ⟨⟨fun s' hs' e he hp => hlink e ?_ ?_, fun i' => ?_⟩, ?_⟩
  · rintro rfl
    exact hs (Option.some.inj (h.apart _ _ _ hmem he) ▸ hs')
  · rintro rfl
    exact hp rfl
  · by_cases hij' : i' = j
    · exact Or.inr (hij' ▸ hnull)
    · exact Or.inl (hlink (p, i') (by simp [hbp.symm]) (by simpa using hij'))
  · by_cases hused : ∃ x, (p, j) ∈ q x
    · obtain ⟨x, hx⟩ := hused
      cases x with
      | none => exact .ready j hx hnull
      | some s' =>
          have hs' : s' ∈ todo := by
            refine (hall s' (List.mem_map_of_mem hx)).resolve_left ?_
            rintro rfl
            exact hij (hone.unique hi hx)
          exact .ahead s' j hs' hx hnull
    · refine .count ?_
      have hfree : p ∉ free := h.allocated hi
      have hsame : used t' p = used t p := by
        ext i'
        rw [mem_used, mem_used]
        by_cases hij' : i' = j
        · subst hij'
          have hold := (h.slot p hfree i').mpr fun x hx => hused ⟨x, hx⟩
          simp [hnull, hold]
        · rw [hlink (p, i') (by simp [hbp.symm]) (by simpa using hij')]
      have hcount : (t' p).qcount = (t p).qcount - 1 := by
        rw [hcleared]
        simp [Int.sub_eq_add_neg]
      rw [hsame, hcount, h.qcount, h.used_eq hfree]
      omega

-- The first queue that outProc gets wrong: the head's own link is another one
-- than the one that is cleared, or the walk ends before it reaches the process.
theorem Spoiled.first {tp' : ProcLink} {out : Option ProcId} (h : Linked t free q)
    (hone : Once p (q (some s))) (hrem : ¬ Removable p (q (some s))) (hs : s ∉ todo)
    (hall : ∀ s', p ∈ (q (some s')).map Prod.fst → s' = s ∨ s' ∈ todo)
    (hrun : outProc t (handle (q (some s))) p = some (t', tp', out)) :
    Torn t t' q p todo ∧ Spoiled t' q p todo := by
  cases hq : q (some s) with
  | nil =>
      rw [hq] at hrem
      exact absurd trivial hrem
  | cons first rest =>
      obtain ⟨front, ⟨b, j⟩, hlast⟩ : ∃ front last, q (some s) = front ++ [last] :=
        ⟨_, _, by rw [hq]; exact (List.dropLast_append_getLast (by simp)).symm⟩
      have hhead : t.link b j = .of (some first) := by
        have hl := h.link_last hlast
        rwa [← hlast, hq] at hl
      have hhandle : handle (q (some s)) = ⟨some j, some b⟩ := by
        rw [hlast, handle_snoc]
        rfl
      have hmem : (b, j) ∈ q (some s) := by simp [hlast]
      obtain ⟨p', i⟩ := first
      rw [hhandle] at hrun
      rw [hq] at hrem
      by_cases hfp : p' = p
      · subst hfp
        rw [Removable, if_pos rfl, ← hq, CleanHead, hlast, List.getLast?_concat, ← hlast, hq] at hrem
        have hij : i ≠ j := fun heq => hrem (by simp [heq])
        have hi : (p', i) ∈ q (some s) := by simp [hq]
        have hbp : b ≠ p' := by
          rintro rfl
          exact hij (hone.unique hi hmem)
        have hcleared : t' = ((t.setLink b j (t.link p' i)).setLink p' j .null).addQcount p' (-1) := by
          simp [outProc, removeProc, hhead, ProcLink.of, hbp.symm] at hrun
          exact hrun.1.symm
        exact Spoiled.of_head h hone hi hmem hij hs hall hcleared
      · rw [Removable, if_neg hfp] at hrem
        push Not at hrem
        obtain ⟨hin, r, hr, hrhead⟩ := hrem
        obtain ⟨⟨a, i₀⟩, he, rfl⟩ := List.mem_map.mp hin
        obtain ⟨mid, post, rfl⟩ := List.append_of_mem he
        have hone' := hone
        rw [hq, ← List.cons_append] at hone'
        have hmid : ∀ e ∈ mid, e.1 ≠ a := fun e he => hone'.absent e (by simp [he])
        rw [List.takeWhile_append_of_pos (by simpa using hmid), List.takeWhile_cons_of_neg (by simp),
          List.append_nil] at hr
        obtain ⟨m₁, m₂, rfl⟩ := List.append_of_mem hr
        have hring := h.ring (some s)
        rw [hq] at hring
        -- the walk meets the head process again at r
        have hwalk : Leads t.succ ((p', i) :: m₁) (some r) := by
          have hleads := hring
          rw [Links.Ring, show (p', i) :: (m₁ ++ r :: m₂ ++ (a, i₀) :: post) =
            ((p', i) :: m₁) ++ r :: (m₂ ++ (a, i₀) :: post) by simp] at hleads
          exact ((leads_append _ _ _).mp hleads).1
        have hlength := nodes_length_le (h.nodup (some s))
        rw [hq] at hlength
        simp only [List.length_cons, List.length_append] at hlength
        have hloop := outProcLoop_absent (p := a) hrhead (MAXPROC * SEMMAX) (p', i) hwalk
          (fun e he => hmid e (by simp [he])) (by omega)
        have hsame : t' = t := by
          simp [outProc, hhead, ProcLink.of, hfp] at hrun
          rw [hloop] at hrun
          simp at hrun
          exact hrun.1.symm
        obtain ⟨front', pred, hpred⟩ : ∃ front' pred, (p', i) :: (m₁ ++ r :: m₂) = front' ++ [pred] :=
          ⟨_, _, (List.dropLast_append_getLast (by simp)).symm⟩
        have hsplit : q (some s) = front' ++ pred :: (a, i₀) :: post := by
          rw [hq, ← List.cons_append, hpred, List.append_assoc, List.singleton_append]
        have hne : pred.1 ≠ a := hone'.absent pred (by
          rw [hpred]
          simp)
        rw [hsame]
        refine ⟨⟨fun _ _ _ _ _ => rfl, fun _ => Or.inl rfl⟩,
          .astray s pred hs (by simp [hsplit]) hne (Or.inr ?_)⟩
        rw [← hq, hsplit] at hring
        rw [ProcTable.link_eq_of_succ (Leads.next_mid hring)]
        rfl

-- A round of the loop, whatever the table holds.
theorem outBlockedLoop_next {front todo : List Active} {e : Active} {fuel : ℕ} {removed r : Bool}
    (hd : Descriptors k.semdTable k.semd_h k.semdFree_h (front ++ e :: todo) spare)
    (hrun : Kernel.outBlockedLoop p (fuel + 1) k (some e.1) removed = some (k', r)) :
    ∃ t tp out k₁ front' spare' removed',
      outProc k.procTable (k.semdTable e.1).s_link p = some (t, tp, out) ∧
      Descriptors k₁.semdTable k₁.semd_h k₁.semdFree_h (front' ++ todo) spare' ∧
      (∀ e' ∈ todo, (k₁.semdTable e'.1).s_link = (k.semdTable e'.1).s_link) ∧
      (∀ p' i, k₁.procTable.link p' i = t.link p' i) ∧
      (∀ p', (k₁.procTable p').qcount = (t p').qcount) ∧
      Kernel.outBlockedLoop p fuel k₁ (todo.map Prod.fst).head? removed' = some (k', r) := by
  have haddr := hd.addr e (by simp)
  obtain ⟨⟨t, tp, out⟩, hout, -⟩ : ∃ result,
      outProc k.procTable (k.semdTable e.1).s_link p = some result ∧ True := by
    cases hout : outProc k.procTable (k.semdTable e.1).s_link p with
    | none => simp [Kernel.outBlockedLoop, haddr, hout] at hrun
    | some result => exact ⟨result, rfl, trivial⟩
  rcases outProc_own hout with ⟨rfl, hsame, -⟩ | ⟨rfl, -, -⟩
  · rw [outBlockedLoop_absent haddr hout, hd.next_cell] at hrun
    refine ⟨t, tp, none, k, front ++ [e], spare, removed, hout, by simpa using hd,
      fun _ _ => rfl, fun _ _ => by rw [hsame], fun _ => by rw [hsame], hrun⟩
  · rw [outBlockedLoop_present haddr hout, hd.next_cell] at hrun
    let k₀ := { k with sem := Function.update k.sem e.2 (toLong (k.sem e.2 + 1)) }
    have hd₀ : Descriptors k₀.semdTable k₀.semd_h k₀.semdFree_h (front ++ e :: todo) spare := hd
    obtain ⟨k₁, spare', hk₁, hd₁, -, hlinks, ht, -⟩ :=
      hd₀.visit (t.setSemvec p (withoutSemaphore (t p).semvec e.2)) tp
    dsimp only [k₀] at hk₁ hlinks hrun
    rw [hk₁] at hrun
    refine ⟨t, tp, some p, k₁, _, spare', true, hout, hd₁, fun e' he' => ?_, fun p' i => ?_,
      fun p' => ?_, hrun⟩
    · have hne : e' ≠ e := by
        rintro rfl
        have hn := (List.nodup_append.mp hd.nodup).1
        rw [List.map_append, List.map_cons, List.nodup_middle, List.nodup_cons] at hn
        exact hn.1 (List.mem_append_right _ (List.mem_map_of_mem he'))
      rw [hlinks e' (List.mem_append_right _ he'), if_neg hne]
    · rw [ht, ProcTable.link_setSemvec]
    · rw [ht, ProcTable.qcount_setSemvec]

theorem Descriptors.fresh {front todo : List Active} {e : Active}
    {first firstFree : Option SemdId} {T : SemdId → Semd}
    (h : Descriptors T first firstFree (front ++ e :: todo) spare) : e.2 ∉ todo.map Prod.snd := by
  have hs := h.sorted
  rw [List.map_append, List.map_cons, List.pairwise_append] at hs
  exact fun hm => lt_irrefl _ ((List.pairwise_cons.mp hs.2.1).1 _ hm)

-- The damage lasts to the end of the loop.
theorem outBlockedLoop_spoiled {front todo : List Active} {fuel : ℕ} {removed r : Bool}
    (h₀ : Linked t₀ free q)
    (hd : Descriptors k.semdTable k.semd_h k.semdFree_h (front ++ todo) spare)
    (hlink : ∀ e ∈ todo, (k.semdTable e.1).s_link = handle (q (some e.2)))
    (hone : ∀ e ∈ todo, Once p (q (some e.2)))
    (ht : Torn t₀ k.procTable q p (todo.map Prod.snd))
    (hs : Spoiled k.procTable q p (todo.map Prod.snd))
    (hrun : Kernel.outBlockedLoop p fuel k (todo.map Prod.fst).head? removed = some (k', r)) :
    Spoiled k'.procTable q p [] := by
  induction todo generalizing k front spare fuel removed with
  | nil =>
      cases fuel with
      | zero => cases hrun
      | succ fuel =>
          cases hrun
          exact hs
  | cons e todo ih =>
      cases fuel with
      | zero => cases hrun
      | succ fuel =>
          obtain ⟨t, tp, out, k₁, front', spare', removed', hout, hd₁, hlinks, hlink₁, hcount₁, hrest⟩ :=
            outBlockedLoop_next hd hrun
          rw [hlink e (by simp)] at hout
          obtain ⟨ht', hs'⟩ := hs.next h₀ (hone e (by simp)) hd.fresh ht hout
          refine ih hd₁ (fun e' he' => ?_) (fun e' he' => hone e' (by simp [he']))
            (ht'.congr hlink₁) (hs'.congr hlink₁ hcount₁) hrest
          exact (hlinks e' he').trans (hlink e' (by simp [he']))

theorem outBlockedLoop_bad {front todo : List Active} {fuel : ℕ} {removed r : Bool}
    (hlinked : Linked k.procTable free q) (ha : ActiveList k q (front ++ todo) spare)
    (hone : ∀ e ∈ todo, Once p (q (some e.2)))
    (hbad : ∃ e ∈ todo, ¬ Removable p (q (some e.2)))
    (hall : ∀ s, p ∈ (q (some s)).map Prod.fst → s ∈ todo.map Prod.snd) (hp : p ∉ free)
    (hrun : Kernel.outBlockedLoop p fuel k (todo.map Prod.fst).head? removed = some (k', r)) :
    ¬ Linked k'.procTable free (expel q p) := by
  induction todo generalizing k q front spare fuel removed with
  | nil => simp at hbad
  | cons e todo ih =>
      cases fuel with
      | zero => cases hrun
      | succ fuel =>
          by_cases hrem : Removable p (q (some e.2))
          · obtain ⟨k₁, spare₁, hround, h₁⟩ :=
              outBlockedLoop_round hlinked ha (hone e (by simp)) hrem
            have hexpel : expel (withdraw q (some e.2) p) p = expel q p := by
              funext x
              cases x with
              | none => simp [expel, withdraw]
              | some s =>
                  by_cases hs : s = e.2
                  · simp [expel, withdraw, hs, List.filter_filter]
                  · simp [expel, withdraw, hs]
            rw [List.map_cons, List.head?_cons, hround] at hrun
            rw [← hexpel]
            refine ih h₁.linked h₁.active (fun e' he' => ?_) ?_ (fun s hs => ?_) hrun
            · rw [h₁.rest e' he']
              exact hone e' (by simp [he'])
            · obtain ⟨e', he', hb⟩ := hbad
              have hin : e' ∈ todo := by
                refine (List.mem_cons.mp he').resolve_left ?_
                rintro rfl
                exact hb hrem
              exact ⟨e', hin, by rwa [h₁.rest e' hin]⟩
            · by_cases hse : s = e.2
              · subst hse
                simp [withdraw] at hs
              · rw [withdraw_of_ne (by simpa using hse)] at hs
                exact (List.mem_cons.mp (hall s hs)).resolve_left hse
          · obtain ⟨t, tp, out, k₁, front', spare', removed', hout, hd₁, hlinks, hlink₁, hcount₁,
              hrest⟩ := outBlockedLoop_next ha.toDescriptors hrun
            rw [ha.tail e (by simp)] at hout
            obtain ⟨ht, hs⟩ := Spoiled.first hlinked (hone e (by simp)) hrem ha.fresh
              (fun s hs => List.mem_cons.mp (hall s hs)) hout
            have hlast := outBlockedLoop_spoiled hlinked hd₁
              (fun e' he' => (hlinks e' he').trans (ha.tail e' (by simp [he'])))
              (fun e' he' => hone e' (by simp [he'])) (ht.congr hlink₁)
              (hs.congr hlink₁ hcount₁) hrest
            exact hlast.not_linked hp

end Damage

theorem Withdraws.removable (h : InOrder k free q asl spare) (hone : ∀ s, Once p (q (some s)))
    (hw : Withdraws k free q asl p) (s : Addr) : Removable p (q (some s)) := by
  obtain ⟨k', spare', hrun, horder, -⟩ := hw
  by_contra hrem
  have hin : p ∈ (q (some s)).map Prod.fst := by
    by_contra hs
    refine hrem ?_
    cases hq : q (some s) with
    | nil => trivial
    | cons first rest =>
        rw [hq, List.map_cons, List.mem_cons, not_or] at hs
        rw [Removable, if_neg (Ne.symm hs.1)]
        exact fun hin => absurd hin hs.2
  obtain ⟨⟨a, i⟩, he, rfl⟩ := List.mem_map.mp hin
  obtain ⟨e, hasl, hse⟩ := List.mem_map.mp (h.mem_of_queued hin)
  have hfirst : k.semd_h = (asl.map Prod.fst).head? := h.doubly.1.1
  obtain ⟨⟨k₁, r⟩, hloop, hlast⟩ := Option.bind_eq_some_iff.mp hrun
  simp only [Option.some.injEq, Prod.mk.injEq] at hlast
  obtain ⟨rfl, -⟩ := hlast
  rw [hfirst] at hloop
  have hwhole : ActiveList k q ([] ++ asl) spare := h.toActiveList
  exact outBlockedLoop_bad h.linked hwhole (fun e _ => hone e.2)
    ⟨e, hasl, hse ▸ hrem⟩ (fun s hs => h.mem_of_queued hs) (h.linked.allocated he) hloop
    horder.linked

theorem Withdraws.raisable (h : InOrder k free q asl spare) (hone : ∀ s, Once p (q (some s)))
    (hw : Withdraws k free q asl p) : Raisable k.sem q p := by
  obtain ⟨k₁, spare₁, hrun₁, hl⟩ := outBlocked_leaves (p := p) h.linked h.toActiveList
    (fun e _ => hone e.2) (fun e _ => hw.removable h hone e.2)
  obtain ⟨k', spare', hrun, -, hframed, -⟩ := hw
  rw [hrun₁] at hrun
  cases hrun
  have henv := hl.framed.env.symm.trans hframed.env
  rw [h.raiseFrom_eq] at henv
  exact raise_eq_increased.mp (congrArg (fun env : Env => env.sem) henv)

-- outBlocked withdraws a process from its semaphores if and only if outProc can take
-- it out of each of their queues and none of their words is at its upper end.
theorem outBlocked_withdraws_iff (h : InOrder k free q asl spare)
    (hone : ∀ s, Once p (q (some s))) :
    Withdraws k free q asl p ↔ (∀ s, Removable p (q (some s))) ∧ Raisable k.sem q p := by
  constructor
  · exact fun hw => ⟨hw.removable h hone, hw.raisable h hone⟩
  · exact fun ⟨hrem, hraise⟩ => h.withdraws hone hrem hraise

theorem Sample.crossing_once (p : ProcId) (s : Addr) : Once p (Sample.crossing (some s)) := by
  by_cases hs : s = 1024
  · subst hs
    revert p
    decide
  · simp [Sample.crossing, hs, Once]

theorem outBlocked_withdraws_parked :
    Withdraws Sample.parked [] Sample.crossing [(0, 1024)] 2 := by
  refine (outBlocked_withdraws_iff parked_inOrder (Sample.crossing_once 2)).mpr
    ⟨fun s => ?_, fun s hmem => ?_⟩
  · by_cases hs : s = 1024
    · subst hs
      decide +kernel
    · simp [Sample.crossing, hs, Removable]
  · have hs : s = 1024 := by
      by_contra hs
      simp [Sample.crossing, hs] at hmem
    subst hs
    decide

-- Process 0 heads the queue through its entry 1 and is on readyQueue through its
-- entry 0, which is the one that is cleared.
theorem outBlocked_parked :
    InOrder Sample.parked [] Sample.crossing [(0, 1024)] ((List.finRange MAXPROC).tail) ∧
    (∀ s, Once 0 (Sample.crossing (some s))) ∧
    (Sample.parked.outBlocked 0).map (fun r =>
      (r.1.procTable.link 0 0, r.1.procTable.link 0 1, r.2)) =
      some (.null, ⟨some 0, some 2⟩, some 0) ∧
    ¬ Withdraws Sample.parked [] Sample.crossing [(0, 1024)] 0 := by
  refine ⟨parked_inOrder, Sample.crossing_once 0, by decide +kernel, fun h => ?_⟩
  exact absurd (h.removable parked_inOrder (Sample.crossing_once 0) 1024) (by decide +kernel)

end Hoca
