import Hoca.Queues

namespace Hoca

open Links

variable {t t' : ProcTable} {free : List ProcId} {q : QueueId → List Node} {x : QueueId}
  {p : ProcId} {i : Slot}

section Slots

theorem exists_free_slot (hc : (occupied q p).card < SEMMAX) : ∃ i, ∀ x, (p, i) ∉ q x := by
  by_contra h
  push Not at h
  have hu : occupied q p = Finset.univ := by
    ext i
    simpa [mem_occupied] using h i
  rw [hu, Finset.card_univ, Fintype.card_fin] at hc
  omega

theorem findAvailableQueueSlot_eq (h : Linked t free q) (hp : p ∉ free)
    (hc : (occupied q p).card < SEMMAX) :
    findAvailableQueueSlot (t p) = some (freeSlot q p) ∧ ∀ x, (p, freeSlot q p) ∉ q x := by
  classical
  have heq : findAvailableQueueSlot (t p) =
      (List.finRange SEMMAX).find? fun i => decide (∀ x, (p, i) ∉ q x) := by
    unfold findAvailableQueueSlot
    congr 1
    funext i
    exact decide_eq_decide.mpr (h.slot p hp i)
  have hslot : freeSlot q p = ((List.finRange SEMMAX).find? fun i =>
      decide (∀ x, (p, i) ∉ q x)).getD 0 := by
    unfold freeSlot
    congr!
  obtain ⟨i, hi⟩ := exists_free_slot hc
  rw [heq, hslot]
  cases hf : (List.finRange SEMMAX).find? (fun i => decide (∀ x, (p, i) ∉ q x)) with
  | none =>
      have hn := List.find?_eq_none.mp hf i (List.mem_finRange i)
      exact absurd hi (by simpa using hn)
  | some j =>
      have hj := List.find?_some hf
      exact ⟨rfl, of_decide_eq_true hj⟩

end Slots

theorem Linked.allocated (h : Linked t free q) {e : Node} (he : e ∈ q x) : e.1 ∉ free :=
  fun hf => h.idle e.1 hf x e.2 he

theorem Linked.next_ne (h : Linked t free q) {e : Node} (he : e ∈ q x) :
    (t.link e.1 e.2).next ≠ none := by
  intro hn
  exact (h.slot e.1 (h.allocated he) e.2).mp hn x he

theorem ring_next_ne {nodes : List Node} (h : Ring t.succ nodes) {e : Node} (he : e ∈ nodes) :
    (t.link e.1 e.2).next ≠ none := by
  obtain ⟨b, -, hb⟩ := h.exists_next he
  rw [ProcTable.link_eq_of_succ hb]
  exact ProcLink.of_some_next_ne b

theorem Linked.link_last (h : Linked t free q) {front : List Node} {e : Node}
    (hq : q x = front ++ [e]) : t.link e.1 e.2 = .of (front ++ [e]).head? := by
  have hr := h.ring x
  rw [hq] at hr
  have hn := hr.next_last
  cases hh : (front ++ [e]).head? with
  | none => simp at hh
  | some e' => exact ProcTable.link_eq_of_succ (hn.trans hh)

theorem headQueue_eq (h : Linked t free q) (x : QueueId) :
    headQueue t (handle (q x)) = some ((q x).head?.map Prod.fst) := by
  cases hq : q x using List.reverseRecOn with
  | nil => simp [headQueue]
  | append_singleton front e =>
      have hl := h.link_last hq
      cases hh : (front ++ [e]).head? with
      | none => simp at hh
      | some e' =>
          rw [hh] at hl
          simp [headQueue, ProcLink.of, hl]

section Semvec

theorem insertProc_semvec {tp tp' : ProcLink} (h : insertProc t tp p = some (t', tp'))
    (p' : ProcId) : (t' p').semvec = (t p').semvec := by
  unfold insertProc at h
  split at h
  · cases h
  · cases hf : findAvailableQueueSlot (t p) with
    | none => simp [hf] at h
    | some i =>
        simp only [hf, Option.bind_eq_bind, Option.bind_some] at h
        split at h
        · simp only [Option.some.injEq, Prod.mk.injEq] at h
          simp [← h.1]
        · cases hi : tp.index with
          | none => simp [hi] at h
          | some j =>
              simp only [hi, Option.bind_some, Option.some.injEq, Prod.mk.injEq] at h
              simp [← h.1]

theorem removeProc_semvec {tp tp' : ProcLink} {out : Option ProcId}
    (h : removeProc t tp = some (t', tp', out)) (p' : ProcId) :
    (t' p').semvec = (t p').semvec := by
  unfold removeProc at h
  split at h
  · simp only [Option.some.injEq, Prod.mk.injEq] at h
    rw [h.1]
  · obtain ⟨j, -, h⟩ := Option.bind_eq_some_iff.mp h
    dsimp only at h
    split at h
    · simp only [Option.some.injEq, Prod.mk.injEq] at h
      simp [← h.1]
    · obtain ⟨headProc, -, h⟩ := Option.bind_eq_some_iff.mp h
      obtain ⟨i, -, h⟩ := Option.bind_eq_some_iff.mp h
      simp only [Option.some.injEq, Prod.mk.injEq] at h
      simp [← h.1]

theorem outProc_semvec {tp tp' : ProcLink} {out : Option ProcId}
    (h : outProc t tp p = some (t', tp', out)) (p' : ProcId) :
    (t' p').semvec = (t p').semvec := by
  unfold outProc at h
  split at h
  · simp only [Option.some.injEq, Prod.mk.injEq] at h
    rw [h.1]
  · obtain ⟨j, -, h⟩ := Option.bind_eq_some_iff.mp h
    dsimp only at h
    split at h
    · exact removeProc_semvec h p'
    · obtain ⟨headProc, -, h⟩ := Option.bind_eq_some_iff.mp h
      obtain ⟨i, -, h⟩ := Option.bind_eq_some_iff.mp h
      obtain ⟨c, -, h⟩ := Option.bind_eq_some_iff.mp h
      cases c with
      | none =>
          simp only [Option.some.injEq, Prod.mk.injEq] at h
          rw [h.1]
      | some c =>
          simp only [Option.some.injEq, Prod.mk.injEq] at h
          simp [← h.1]

end Semvec

section Insert

theorem mem_update_snoc (e : Node) (y : QueueId) (e' : Node) :
    e' ∈ Function.update q x (q x ++ [e]) y ↔ e' ∈ q y ∨ (y = x ∧ e' = e) := by
  by_cases hy : y = x
  · subst hy
    simp
  · simp [hy]

theorem occupied_snoc (p' : ProcId) :
    occupied (Function.update q x (q x ++ [(p, i)])) p' =
      if p' = p then insert i (occupied q p') else occupied q p' := by
  by_cases heq : p' = p
  · subst heq
    ext j
    simp only [mem_occupied, mem_update_snoc, Prod.mk.injEq, true_and, if_true, Finset.mem_insert]
    constructor
    · rintro ⟨y, hy | ⟨-, rfl⟩⟩
      · exact Or.inr ⟨y, hy⟩
      · exact Or.inl rfl
    · rintro (rfl | ⟨y, hy⟩)
      · exact ⟨x, Or.inr ⟨rfl, rfl⟩⟩
      · exact ⟨y, Or.inl hy⟩
  · ext j
    simp [mem_occupied, mem_update_snoc, heq]

-- A table with one more node at the end of a queue.
theorem Linked.extend (h : Linked t free q) (hp : p ∉ free) (hnew : ∀ x, (p, i) ∉ q x)
    (hring : Ring t'.succ (q x ++ [(p, i)]))
    (hlink : ∀ e, e ∉ q x → e ≠ (p, i) → t'.link e.1 e.2 = t.link e.1 e.2)
    (hcount : ∀ p', (t' p').qcount = if p' = p then (t p').qcount + 1 else (t p').qcount) :
    Linked t' free (Function.update q x (q x ++ [(p, i)])) where
  ring y := by
    by_cases hy : y = x
    · subst hy
      simpa using hring
    · rw [Function.update_of_ne hy]
      refine (h.ring y).congr fun e he => ?_
      have hne : e ≠ (p, i) := fun heq => hnew y (heq ▸ he)
      simp only [ProcTable.succ, hlink e (fun hx => hy (h.apart y x e he hx)) hne]
  nodup y := by
    by_cases hy : y = x
    · subst hy
      rw [Function.update_self, List.nodup_append]
      refine ⟨h.nodup y, by simp, ?_⟩
      rintro a ha b hb rfl
      exact hnew y (List.mem_singleton.mp hb ▸ ha)
    · rw [Function.update_of_ne hy]
      exact h.nodup y
  apart y z e hy hz := by
    rw [mem_update_snoc] at hy hz
    rcases hy with hy | ⟨rfl, rfl⟩ <;> rcases hz with hz | ⟨rfl, hz⟩
    · exact h.apart y z e hy hz
    · exact absurd (hz ▸ hy) (hnew y)
    · exact absurd hz (hnew z)
    · rfl
  slot p' hp' i' := by
    by_cases hold : ∃ y, (p', i') ∈ Function.update q x (q x ++ [(p, i)]) y
    · obtain ⟨y, hy⟩ := hold
      have hne : (t'.link p' i').next ≠ none := by
        rcases (mem_update_snoc _ y _).mp hy with hy' | ⟨-, heq⟩
        · by_cases hx : (p', i') ∈ q x
          · exact ring_next_ne hring (e := (p', i')) (by simp [hx])
          · rw [hlink (p', i') hx fun heq => hnew y (heq ▸ hy')]
            exact h.next_ne hy'
        · exact ring_next_ne hring (e := (p', i')) (by simp [heq])
      exact ⟨fun hn => absurd hn hne, fun hn => absurd hy (hn y)⟩
    · have hnone : ∀ y, (p', i') ∉ q y := fun y hy =>
        hold ⟨y, (mem_update_snoc _ y _).mpr (Or.inl hy)⟩
      have hne : (p', i') ≠ (p, i) := fun heq =>
        hold ⟨x, (mem_update_snoc _ x _).mpr (Or.inr ⟨rfl, heq⟩)⟩
      rw [hlink (p', i') (hnone x) hne]
      exact ⟨fun _ y hy => hold ⟨y, hy⟩, fun _ => (h.slot p' hp' i').mpr hnone⟩
  qcount p' := by
    rw [hcount, occupied_snoc]
    by_cases heq : p' = p
    · subst heq
      have hni : i ∉ occupied q p' := fun hm => by
        obtain ⟨y, hy⟩ := mem_occupied.mp hm
        exact hnew y hy
      rw [if_pos rfl, if_pos rfl, Finset.card_insert_of_notMem hni, h.qcount p']
      push_cast
      rfl
    · rw [if_neg heq, if_neg heq, h.qcount p']
  idle p' hp' y i' hy := by
    rcases (mem_update_snoc _ y _).mp hy with hy | ⟨-, heq⟩
    · exact h.idle p' hp' y i' hy
    · cases heq
      exact hp hp'

-- insertProc appends the process, at the first free entry of its p_link.
theorem insertProc_spec (h : Linked t free q) (x : QueueId) (hp : p ∉ free)
    (hc : (occupied q p).card < SEMMAX) :
    ∃ t', insertProc t (handle (q x)) p = some (t', handle (enqueue q x p x)) ∧
      Linked t' free (enqueue q x p) ∧ Untouched free t t' := by
  have hcount : ¬ (t p).qcount ≥ (SEMMAX : Int) := by
    rw [h.qcount p]
    omega
  obtain ⟨hfind, hnew⟩ := findAvailableQueueSlot_eq h hp hc
  unfold enqueue
  generalize freeSlot q p = i at hfind hnew
  rw [Function.update_self, handle_snoc]
  cases hq : q x using List.reverseRecOn with
  | nil =>
      refine ⟨(t.setLink p i ⟨some i, some p⟩).addQcount p 1, ?_, ?_, ?_⟩
      · rw [insertProc, if_neg hcount]
        simp [hfind, ProcLink.of]
      · have hring : Ring (ProcTable.succ ((t.setLink p i ⟨some i, some p⟩).addQcount p 1))
            [(p, i)] := ring_singleton (by simp [ProcTable.succ, ProcLink.node])
        have he := h.extend hp hnew (by rwa [hq]) ?_ ?_
        · rwa [hq] at he
        · intro e _ hne
          rw [ProcTable.link_addQcount, ProcTable.link_setLink_of_ne _ _ _ _ _ _ hne]
        · intro p'
          by_cases heq : p' = p
          · simp [heq]
          · simp [heq, ProcTable.qcount_addQcount_of_ne]
      · refine ⟨by simp, by simp, ?_⟩
        intro p' hp' i'
        have hne : (p', i') ≠ (p, i) := fun heq => hp (by cases heq; exact hp')
        rw [ProcTable.link_addQcount, ProcTable.link_setLink_of_ne _ _ _ _ _ _ hne]
  | append_singleton front e =>
      obtain ⟨a, j⟩ := e
      have hmem : (a, j) ∈ q x := by simp [hq]
      have hne : (p, i) ≠ (a, j) := fun heq => hnew x (heq ▸ hmem)
      let t₁ := ((t.setLink a j ⟨some i, some p⟩).setLink p i (t.link a j)).addQcount p 1
      have hlink : ∀ e, e ≠ (a, j) → e ≠ (p, i) → t₁.link e.1 e.2 = t.link e.1 e.2 := by
        intro e ha hpi
        simp only [t₁]
        rw [ProcTable.link_addQcount, ProcTable.link_setLink_of_ne _ _ _ _ _ _ hpi,
          ProcTable.link_setLink_of_ne _ _ _ _ _ _ ha]
      refine ⟨t₁, ?_, ?_, ?_⟩
      · rw [insertProc, if_neg hcount]
        simp [hfind, ProcLink.of, t₁]
      · rw [← hq]
        refine h.extend hp hnew ?_ ?_ ?_
        · have hr := h.ring x
          rw [hq] at hr ⊢
          refine hr.snoc ?_ ?_ ?_
          · simp only [ProcTable.succ, t₁]
            rw [ProcTable.link_addQcount, ProcTable.link_setLink_of_ne _ _ _ _ _ _ hne.symm,
              ProcTable.link_setLink_self]
            rfl
          · simp [ProcTable.succ, t₁]
          · intro b hb
            have hnd := h.nodup x
            rw [hq, List.nodup_append] at hnd
            have hba : b ≠ (a, j) := hnd.2.2 b hb (a, j) (by simp)
            have hbp : b ≠ (p, i) := fun heq => hnew x (by simp [hq, ← heq, hb])
            simp only [ProcTable.succ, hlink b hba hbp]
        · intro e he hpi
          exact hlink e (fun heq => he (heq ▸ hmem)) hpi
        · intro p'
          by_cases heq : p' = p
          · simp [heq, t₁]
          · simp [heq, t₁, ProcTable.qcount_addQcount_of_ne]
      · refine ⟨by simp [t₁], by simp [t₁], ?_⟩
        intro p' hp' i'
        refine hlink (p', i') ?_ ?_
        · rintro heq
          cases heq
          exact h.allocated hmem hp'
        · rintro heq
          cases heq
          exact hp hp'

end Insert

section Remove

theorem occupied_shrink {nodes : List Node} (h : Linked t free q) (he : (p, i) ∈ q x)
    (hmem : ∀ e, e ∈ nodes ↔ e ∈ q x ∧ e ≠ (p, i)) (p' : ProcId) :
    occupied (Function.update q x nodes) p' =
      if p' = p then (occupied q p').erase i else occupied q p' := by
  have hm : ∀ y e, e ∈ Function.update q x nodes y ↔ e ∈ q y ∧ e ≠ (p, i) := by
    intro y e
    by_cases hy : y = x
    · subst hy
      simpa using hmem e
    · rw [Function.update_of_ne hy]
      refine ⟨fun hq => ⟨hq, ?_⟩, And.left⟩
      rintro rfl
      exact hy (h.apart y x _ hq he)
  ext j
  by_cases heq : p' = p
  · subst heq
    simp only [mem_occupied, hm, if_true, Finset.mem_erase, ne_eq, Prod.mk.injEq, true_and]
    constructor
    · rintro ⟨y, hy, hne⟩
      exact ⟨hne, y, hy⟩
    · rintro ⟨hne, y, hy⟩
      exact ⟨y, hy, hne⟩
  · simp [mem_occupied, hm, heq]

-- A table with one node less on a queue.
theorem Linked.shrink {nodes : List Node} (h : Linked t free q) (he : (p, i) ∈ q x)
    (hmem : ∀ e, e ∈ nodes ↔ e ∈ q x ∧ e ≠ (p, i)) (hnd : nodes.Nodup)
    (hring : Ring t'.succ nodes) (hnull : (t'.link p i).next = none)
    (hlink : ∀ e, e ∉ q x → t'.link e.1 e.2 = t.link e.1 e.2)
    (hcount : ∀ p', (t' p').qcount = if p' = p then (t p').qcount - 1 else (t p').qcount) :
    Linked t' free (Function.update q x nodes) where
  ring y := by
    by_cases hy : y = x
    · subst hy
      simpa using hring
    · rw [Function.update_of_ne hy]
      refine (h.ring y).congr fun e hq => ?_
      simp only [ProcTable.succ, hlink e (fun hx => hy (h.apart y x e hq hx))]
  nodup y := by
    by_cases hy : y = x
    · subst hy
      simpa using hnd
    · rw [Function.update_of_ne hy]
      exact h.nodup y
  apart y z e hy hz := by
    have hsub : ∀ w, e ∈ Function.update q x nodes w → e ∈ q w := by
      intro w hw
      by_cases hx : w = x
      · subst hx
        exact ((hmem e).mp (by simpa using hw)).1
      · rwa [Function.update_of_ne hx] at hw
    exact h.apart y z e (hsub y hy) (hsub z hz)
  slot p' hp' i' := by
    by_cases heq : (p', i') = (p, i)
    · cases heq
      refine ⟨fun _ y hy => ?_, fun _ => hnull⟩
      by_cases hx : y = x
      · subst hx
        exact ((hmem _).mp (by simpa using hy)).2 rfl
      · rw [Function.update_of_ne hx] at hy
        exact hx (h.apart y x _ hy he)
    · by_cases hx : (p', i') ∈ q x
      · have hin : (p', i') ∈ nodes := (hmem _).mpr ⟨hx, heq⟩
        refine ⟨fun hn => absurd hn (ring_next_ne hring (e := (p', i')) hin), fun hn => ?_⟩
        exact absurd (by simpa using hin) (hn x)
      · rw [hlink (p', i') hx, h.slot p' hp' i']
        refine forall_congr' fun y => ?_
        by_cases hy : y = x
        · subst hy
          simp [hx, hmem]
        · rw [Function.update_of_ne hy]
  qcount p' := by
    rw [hcount, occupied_shrink h he hmem]
    by_cases heq : p' = p
    · subst heq
      have hi : i ∈ occupied q p' := mem_occupied.mpr ⟨x, he⟩
      have hpos := Finset.card_pos.mpr ⟨i, hi⟩
      rw [if_pos rfl, if_pos rfl, Finset.card_erase_of_mem hi, h.qcount p']
      omega
    · rw [if_neg heq, if_neg heq, h.qcount p']
  idle p' hp' y i' hy := by
    by_cases hx : y = x
    · subst hx
      exact h.idle p' hp' y i' ((hmem _).mp (by simpa using hy)).1
    · rw [Function.update_of_ne hx] at hy
      exact h.idle p' hp' y i' hy

theorem ProcTable.link_unhook (pred : Node) (l : ProcLink) {e : Node} (hp : e ≠ (p, i)) (hb : e ≠ pred) :
    (((t.setLink pred.1 pred.2 l).setLink p i .null).addQcount p (-1)).link e.1 e.2 =
      t.link e.1 e.2 := by
  rw [link_addQcount, link_setLink_of_ne _ _ _ _ _ _ hp, link_setLink_of_ne _ _ _ _ _ _ hb]

theorem ProcTable.link_unhook_pred (pred : Node) (l : ProcLink) (hne : pred ≠ (p, i)) :
    (((t.setLink pred.1 pred.2 l).setLink p i .null).addQcount p (-1)).link pred.1 pred.2 = l := by
  rw [link_addQcount, link_setLink_of_ne _ _ _ _ _ _ hne, link_setLink_self]

-- A node leaves its queue when the one in front of it takes over its link.
theorem Linked.unhook {nodes : List Node} {pred : Node} (h : Linked t free q)
    (he : (p, i) ∈ q x) (hpred : pred ∈ q x) (hne : pred ≠ (p, i))
    (hmem : ∀ e, e ∈ nodes ↔ e ∈ q x ∧ e ≠ (p, i)) (hnd : nodes.Nodup)
    (ht : t' = ((t.setLink pred.1 pred.2 (t.link p i)).setLink p i .null).addQcount p (-1))
    (hring : t'.succ pred = t.succ (p, i) →
      (∀ e, e ≠ (p, i) → e ≠ pred → t'.succ e = t.succ e) → Ring t'.succ nodes) :
    Linked t' free (Function.update q x nodes) ∧ Untouched free t t' := by
  have hother : ∀ e, e ≠ (p, i) → e ≠ pred → t'.link e.1 e.2 = t.link e.1 e.2 := by
    intro e hep heb
    rw [ht, ProcTable.link_unhook pred _ hep heb]
  have hlast : t'.link pred.1 pred.2 = t.link p i := by
    rw [ht, ProcTable.link_unhook_pred pred _ hne]
  constructor
  · refine h.shrink he hmem hnd (hring ?_ ?_) (by simp [ht]) ?_ ?_
    · simp only [ProcTable.succ, hlast]
    · intro e hep heb
      simp only [ProcTable.succ, hother e hep heb]
    · intro e heq
      exact hother e (fun hc => heq (hc ▸ he)) (fun hc => heq (hc ▸ hpred))
    · intro p'
      by_cases heq : p' = p
      · subst heq
        simp [ht, Int.sub_eq_add_neg]
      · simp [ht, heq, ProcTable.qcount_addQcount_of_ne]
  · refine ⟨by simp [ht], by simp [ht], fun p' hp' i' => hother (p', i') ?_ ?_⟩
    · rintro heq
      cases heq
      exact h.allocated he hp'
    · rintro rfl
      exact h.allocated hpred hp'

theorem cleanHead_iff {first last : Node} {mid : List Node} :
    CleanHead (first :: (mid ++ [last])) ↔ first.2 = last.2 := by
  rw [CleanHead, ← List.cons_append, List.getLast?_concat]
  simp

-- removeProc takes the first process off, if the tail uses the same index.
theorem removeProc_spec (h : Linked t free q) (x : QueueId) (hclean : CleanHead (q x)) :
    ∃ t', removeProc t (handle (q x)) =
        some (t', handle (dequeue q x x), (q x).head?.map Prod.fst) ∧
      Linked t' free (dequeue q x) ∧ Untouched free t t' := by
  unfold dequeue
  rw [Function.update_self]
  cases hq : q x with
  | nil =>
      refine ⟨t, by simp [removeProc], ?_, Untouched.refl free t⟩
      rw [show ([] : List Node).tail = q x by simp [hq], Function.update_eq_self]
      exact h
  | cons e rest =>
      obtain ⟨p, i⟩ := e
      have hmem : (p, i) ∈ q x := by simp [hq]
      have hp := h.allocated hmem
      cases rest using List.reverseRecOn with
      | nil =>
          have hone : q x = [] ++ [(p, i)] := hq
          have hlast := h.link_last hone
          refine ⟨(t.setLink p i .null).addQcount p (-1), ?_, ?_, ?_⟩
          · simp [removeProc, handle, ProcLink.of, show t.link p i = _ from hlast]
          · have hnone : ∀ e, e ∈ ([] : List Node) ↔ e ∈ q x ∧ e ≠ (p, i) := by simp [hq]
            refine h.shrink hmem hnone (by simp) trivial (by simp) ?_ ?_
            · intro e he
              rw [ProcTable.link_addQcount, ProcTable.link_setLink_of_ne]
              rintro heq
              obtain rfl : e = (p, i) := heq
              exact he hmem
            · intro p'
              by_cases heq : p' = p
              · subst heq
                simp [Int.sub_eq_add_neg]
              · simp [heq, ProcTable.qcount_addQcount_of_ne]
          · refine ⟨by simp, by simp, fun p' hp' i' => ?_⟩
            rw [ProcTable.link_addQcount, ProcTable.link_setLink_of_ne]
            rintro heq
            cases heq
            exact hp hp'
      | append_singleton front a =>
          obtain ⟨b, j⟩ := a
          have hsplit : q x = ((p, i) :: front) ++ [(b, j)] := by simp [hq]
          obtain rfl : i = j := by
            rw [hq] at hclean
            exact cleanHead_iff.mp hclean
          have hnd := h.nodup x
          rw [hq] at hnd
          have hbp : b ≠ p := by
            rintro rfl
            simp at hnd
          have hlast := h.link_last hsplit
          have hmemb : (b, i) ∈ q x := by simp [hq]
          have hne : (b, i) ≠ (p, i) := fun heq => hbp (congrArg Prod.fst heq)
          have hmemrest : ∀ e, e ∈ front ++ [(b, i)] ↔ e ∈ q x ∧ e ≠ (p, i) := by
            intro e
            rw [hq, List.mem_cons]
            refine ⟨fun he => ⟨Or.inr he, ?_⟩, fun he => he.1.resolve_left he.2⟩
            rintro rfl
            exact (List.nodup_cons.mp hnd).1 he
          refine ⟨_, ?_, h.unhook hmem hmemb hne hmemrest hnd.of_cons rfl fun hpred hother => ?_⟩
          · have hlink : t.link b i = ⟨some i, some p⟩ := hlast
            have hh : handle ((p, i) :: (front ++ [(b, i)])) = ⟨some i, some b⟩ := by
              rw [← List.cons_append, handle_snoc]
              rfl
            simp [removeProc, hh, hlink, hbp.symm, ProcLink.of]
          · have hr := h.ring x
            rw [hq] at hr
            refine hr.behead hpred fun e he => hother e ?_ ?_
            · exact ((hmemrest e).mp (List.mem_append_left _ he)).2
            · rintro rfl
              exact (List.nodup_append.mp hnd.of_cons).2.2 _ he _ (by simp) rfl

end Remove

section Out

-- The walk ends where it meets the head process again.
theorem outProcLoop_absent {head : ProcId} {first : Node} (hfirst : first.1 = head)
    {back : List Node} (fuel : ℕ) (e : Node) (h : Leads t.succ (e :: back) (some first))
    (hback : ∀ e ∈ back, e.1 ≠ p) (hfuel : back.length < fuel) :
    outProcLoop t p head fuel e.1 e.2 = some none := by
  induction back generalizing fuel e with
  | nil =>
      cases fuel with
      | zero => simp at hfuel
      | succ fuel =>
          have hl := ProcTable.link_eq_of_succ (by simpa using h.1)
          simp [outProcLoop, hl, ProcLink.of, hfirst]
  | cons b back ih =>
      cases fuel with
      | zero => simp at hfuel
      | succ fuel =>
          have hl := ProcTable.link_eq_of_succ (by simpa using h.1)
          by_cases hb : b.1 = head
          · simp [outProcLoop, hl, ProcLink.of, hb]
          · have hr := ih fuel b h.2 (fun e he => hback e (by simp [he])) (by simpa using hfuel)
            simp [outProcLoop, hl, ProcLink.of, hb, hback b (by simp), hr]

-- The walk stops at p with the node before it at hand.
theorem outProcLoop_present {head : ProcId} {stop : Option Node} {mid post : List Node}
    (fuel : ℕ) (e : Node) (h : Leads t.succ (e :: (mid ++ (p, i) :: post)) stop)
    (hmid : ∀ e ∈ mid, e.1 ≠ head ∧ e.1 ≠ p) (hp : p ≠ head) (hfuel : mid.length < fuel)
    {front : List Node} {pred : Node} (hpred : e :: mid = front ++ [pred]) :
    outProcLoop t p head fuel e.1 e.2 = some (some ⟨pred.1, pred.2, p, i⟩) := by
  induction mid generalizing fuel e front with
  | nil =>
      cases fuel with
      | zero => simp at hfuel
      | succ fuel =>
          have hl := ProcTable.link_eq_of_succ (by simpa using h.1)
          obtain rfl : e = pred := by
            have hlast := congrArg List.getLast? hpred
            simpa using hlast
          simp [outProcLoop, hl, ProcLink.of, hp]
  | cons b mid ih =>
      cases fuel with
      | zero => simp at hfuel
      | succ fuel =>
          have hl := ProcTable.link_eq_of_succ (by simpa using h.1)
          have hb := hmid b (by simp)
          cases front with
          | nil => simp at hpred
          | cons c front =>
              have hr := ih fuel b h.2 (fun e he => hmid e (by simp [he]))
                (by simpa using hfuel) (List.cons.inj hpred).2
              simp [outProcLoop, hl, ProcLink.of, hb.1, hb.2, hr]

theorem nodes_length_le {nodes : List Node} (h : nodes.Nodup) :
    nodes.length ≤ MAXPROC * SEMMAX := by
  have hc := h.length_le_card
  simpa using hc

-- A process is at most once on a queue.
def Once (p : ProcId) (nodes : List Node) : Prop :=
  nodes.countP (fun e => e.1 = p) ≤ 1

-- outProc can take the process out: at the head if removeProc clears the right
-- link, and further back if no node before it belongs to the process of the head.
def Removable (p : ProcId) : List Node → Prop
  | [] => True
  | first :: rest =>
      if first.1 = p then CleanHead (first :: rest)
      else p ∈ rest.map Prod.fst → ∀ e ∈ rest.takeWhile fun e => e.1 ≠ p, e.1 ≠ first.1

instance (nodes : List Node) : Decidable (Once p nodes) :=
  inferInstanceAs (Decidable (_ ≤ _))

instance : ∀ nodes : List Node, Decidable (Removable p nodes)
  | [] => isTrue trivial
  | first :: rest => inferInstanceAs (Decidable (if first.1 = p then CleanHead (first :: rest)
      else p ∈ rest.map Prod.fst → ∀ e ∈ rest.takeWhile fun e => e.1 ≠ p, e.1 ≠ first.1))

theorem Once.absent {front back : List Node} (h : Once p (front ++ (p, i) :: back)) :
    ∀ e ∈ front ++ back, e.1 ≠ p := by
  have hzero : (front ++ back).countP (fun e => e.1 = p) = 0 := by
    simp only [Once, List.countP_append, List.countP_cons, decide_true, if_true] at h ⊢
    omega
  intro e he
  simpa using List.countP_eq_zero.mp hzero e he

theorem Once.unique {nodes : List Node} {j : Slot} (h : Once p nodes) (hi : (p, i) ∈ nodes)
    (hj : (p, j) ∈ nodes) : i = j := by
  obtain ⟨front, back, rfl⟩ := List.append_of_mem hi
  by_contra hij
  refine h.absent (p, j) ?_ rfl
  simp only [List.mem_append, List.mem_cons, Prod.mk.injEq, true_and] at hj ⊢
  tauto

theorem Once.filter {front back : List Node} (h : Once p (front ++ (p, i) :: back)) :
    (front ++ (p, i) :: back).filter (fun e => e.1 ≠ p) = front ++ back := by
  have hkeep : (front ++ back).filter (fun e => e.1 ≠ p) = front ++ back :=
    List.filter_eq_self.mpr fun e he => by simpa using h.absent e he
  rw [List.filter_append, List.filter_cons_of_neg (by simp), ← List.filter_append, hkeep]

theorem once_of_distinct {nodes : List Node} (h : (nodes.map Prod.fst).Nodup) :
    Once p nodes := by
  have hc := List.nodup_iff_count_le_one.mp h p
  rw [List.count, List.countP_map] at hc
  refine le_trans (le_of_eq ?_) hc
  exact List.countP_congr fun e _ => by simp

theorem removable_of_distinct {nodes : List Node} (h : (nodes.map Prod.fst).Nodup)
    (hclean : nodes.head?.map Prod.fst = some p → CleanHead nodes) : Removable p nodes := by
  cases nodes with
  | nil => trivial
  | cons first rest =>
      by_cases hp : first.1 = p
      · rw [Removable, if_pos hp]
        exact hclean (by simp [hp])
      · rw [Removable, if_neg hp]
        intro _ e he heq
        rw [List.map_cons, List.nodup_cons] at h
        exact h.1 (heq ▸ List.mem_map_of_mem ((List.takeWhile_sublist _).subset he))

theorem Removable.mid {first : Node} {mid post : List Node}
    (h : Removable p (first :: (mid ++ (p, i) :: post)))
    (hone : Once p (first :: (mid ++ (p, i) :: post))) (hfirst : first.1 ≠ p) :
    ∀ e ∈ mid, e.1 ≠ first.1 ∧ e.1 ≠ p := by
  rw [← List.cons_append] at hone
  have hmid : ∀ e ∈ mid, e.1 ≠ p := fun e he => hone.absent e (by simp [he])
  have htake : (mid ++ (p, i) :: post).takeWhile (fun e => e.1 ≠ p) = mid := by
    rw [List.takeWhile_append_of_pos (by simpa using hmid), List.takeWhile_cons_of_neg (by simp),
      List.append_nil]
  rw [Removable, if_neg hfirst, htake] at h
  exact fun e he => ⟨h (by simp) e he, hmid e he⟩

theorem nodup_mid {a b : Node} {front post : List Node} (h : (front ++ a :: b :: post).Nodup) :
    a ≠ b ∧ ∀ e ∈ front ++ post, e ≠ a ∧ e ≠ b := by
  rw [List.nodup_append] at h
  simp only [List.nodup_cons, List.mem_cons, not_or] at h
  obtain ⟨-, ⟨⟨hab, ha⟩, hb, -⟩, hfront⟩ := h
  refine ⟨hab, fun e he => ?_⟩
  rcases List.mem_append.mp he with he | he
  · exact ⟨hfront e he a (by simp), hfront e he b (by simp)⟩
  · constructor
    · rintro rfl
      exact ha he
    · rintro rfl
      exact hb he

-- The handle follows when the process was the tail.
theorem handle_unhook {front post : List Node} {pred last : Node}
    (hhandle : handle (front ++ pred :: (p, i) :: post) = .of (some last))
    (hpost : ∀ e ∈ post, e.1 ≠ p) :
    (if p = last.1 then (⟨some pred.2, some pred.1⟩ : ProcLink) else .of (some last)) =
      handle (front ++ pred :: post) := by
  cases post using List.reverseRecOn with
  | nil =>
      have heq : ProcLink.of (some (p, i)) = .of (some last) := by
        rw [← hhandle, show front ++ [pred, (p, i)] = (front ++ [pred]) ++ [(p, i)] by simp,
          handle_snoc]
      obtain rfl : (p, i) = last := by
        simpa using congrArg ProcLink.node heq
      rw [if_pos rfl, handle_snoc]
      rfl
  | append_singleton post b =>
      have heq : ProcLink.of (some b) = .of (some last) := by
        rw [← hhandle, show front ++ pred :: (p, i) :: (post ++ [b]) =
          (front ++ pred :: (p, i) :: post) ++ [b] by simp, handle_snoc]
      obtain rfl : b = last := by
        simpa using congrArg ProcLink.node heq
      have hpb : p ≠ b.1 := (hpost b (by simp)).symm
      rw [if_neg hpb, show front ++ pred :: (post ++ [b]) = (front ++ pred :: post) ++ [b] by
        simp, handle_snoc]

-- The part of outProc after its loop, with the process behind the head.
theorem outProc_later (h : Linked t free q) {first last : Node} {mid post : List Node}
    (hq : q x = first :: (mid ++ (p, i) :: post))
    (hone : Once p (first :: (mid ++ (p, i) :: post)))
    (hmid : ∀ e ∈ mid, e.1 ≠ first.1 ∧ e.1 ≠ p)
    (hhandle : handle (first :: (mid ++ (p, i) :: post)) = .of (some last))
    (hhead : t.link last.1 last.2 = .of (some first)) {front : List Node} {pred : Node}
    (hpred : first :: mid = front ++ [pred]) (hp : p ≠ first.1) :
    ∃ t', outProc t (handle (first :: (mid ++ (p, i) :: post))) p =
        some (t', handle ((first :: (mid ++ (p, i) :: post)).filter fun e => e.1 ≠ p),
          if p ∈ (first :: (mid ++ (p, i) :: post)).map Prod.fst then some p else none) ∧
      Linked t' free (Function.update q x
        ((first :: (mid ++ (p, i) :: post)).filter fun e => e.1 ≠ p)) ∧
      Untouched free t t' := by
  have hsplit : first :: (mid ++ (p, i) :: post) = front ++ pred :: (p, i) :: post := by
    rw [← List.cons_append, hpred, List.append_assoc]
    rfl
  have hfilter : (first :: (mid ++ (p, i) :: post)).filter (fun e => e.1 ≠ p) =
      front ++ pred :: post := by
    rw [← List.cons_append] at hone ⊢
    rw [hone.filter, hpred, List.append_assoc]
    rfl
  have hring := h.ring x
  have hnodup := h.nodup x
  have hlength := nodes_length_le hnodup
  rw [hq, hsplit] at hring
  obtain ⟨hne, hapart⟩ := nodup_mid (hsplit ▸ hq ▸ hnodup)
  have hloop : outProcLoop t p first.1 (MAXPROC * SEMMAX) first.1 first.2 =
      some (some ⟨pred.1, pred.2, p, i⟩) := by
    rw [hq] at hlength
    refine outProcLoop_present _ first (hsplit ▸ hring) hmid hp ?_ hpred
    simp only [List.length_cons, List.length_append] at hlength
    omega
  have htail := handle_unhook (hsplit ▸ hhandle) fun e he => by
    rw [← List.cons_append] at hone
    exact hone.absent e (by simp [he])
  have hnd : (front ++ pred :: post).Nodup := by
    rw [← hfilter]
    exact (hq ▸ hnodup).filter _
  have hrest : ∀ e, e ∈ front ++ pred :: post ↔ e ∈ q x ∧ e ≠ (p, i) := by
    intro e
    rw [hq, hsplit]
    simp only [List.mem_append, List.mem_cons] at hapart ⊢
    constructor
    · rintro (he | rfl | he)
      · exact ⟨Or.inl he, (hapart e (Or.inl he)).2⟩
      · exact ⟨Or.inr (Or.inl rfl), hne⟩
      · exact ⟨Or.inr (Or.inr (Or.inr he)), (hapart e (Or.inr he)).2⟩
    · tauto
  rw [hfilter]
  have hmempred : pred ∈ q x := by simp [hq, hsplit]
  refine ⟨_, ?_, h.unhook (by simp [hq]) hmempred hne hrest hnd rfl fun hlast hother => ?_⟩
  · have hin : p ∈ (first :: (mid ++ (p, i) :: post)).map Prod.fst := by simp
    rw [hhandle, if_pos hin, ← htail]
    simp [outProc, ProcLink.of, hhead, hp.symm, hloop]
  · exact hring.cut hlast fun e he => hother e (hapart e he).2 (hapart e he).1

-- outProc finds the head of the queue from its handle.
theorem Linked.handle_cons {first : Node} {rest : List Node} (h : Linked t free q)
    (hq : q x = first :: rest) : ∃ last, handle (first :: rest) = .of (some last) ∧
      t.link last.1 last.2 = .of (some first) := by
  obtain ⟨front, last, hlast⟩ : ∃ front last, q x = front ++ [last] :=
    ⟨_, _, by rw [hq]; exact (List.dropLast_append_getLast (by simp)).symm⟩
  refine ⟨last, ?_, ?_⟩
  · rw [← hq, hlast, handle_snoc]
  · rw [h.link_last hlast, ← hlast, hq]
    rfl

-- outProc of a process that is not on the queue.
theorem outProc_absent (h : Linked t free q) (x : QueueId) (hp : p ∉ (q x).map Prod.fst) :
    outProc t (handle (q x)) p = some (t, handle (q x), none) := by
  cases hq : q x with
  | nil => simp [outProc]
  | cons first rest =>
      rw [hq] at hp
      obtain ⟨last, hhandle, hhead⟩ := h.handle_cons hq
      have hfuel : (first :: rest).length ≤ MAXPROC * SEMMAX := by
        rw [← hq]
        exact nodes_length_le (h.nodup x)
      have hnot : ∀ e ∈ first :: rest, e.1 ≠ p := by
        rintro e he rfl
        exact hp (List.mem_map_of_mem he)
      have hring := h.ring x
      rw [hq] at hring
      have hloop := outProcLoop_absent (t := t) (p := p) rfl (MAXPROC * SEMMAX) first
        hring (fun e he => hnot e (by simp [he])) (Nat.lt_of_succ_le hfuel)
      rw [hhandle]
      simp [outProc, ProcLink.of, hhead, hnot first (by simp), hloop]

-- outProc takes the process out wherever it is in the queue.
theorem outProc_spec (h : Linked t free q) (x : QueueId) (p : ProcId) (hone : Once p (q x))
    (hrem : Removable p (q x)) :
    ∃ t', outProc t (handle (q x)) p =
        some (t', handle (withdraw q x p x), if p ∈ (q x).map Prod.fst then some p else none) ∧
      Linked t' free (withdraw q x p) ∧ Untouched free t t' := by
  unfold withdraw
  rw [Function.update_self]
  by_cases hin : p ∈ (q x).map Prod.fst
  · cases hq : q x with
    | nil => simp [hq] at hin
    | cons first rest =>
        rw [hq] at hone hrem hin
        obtain ⟨last, hhandle, hhead⟩ := h.handle_cons hq
        by_cases hfp : first.1 = p
        · -- the head is left to removeProc
          rw [Removable, if_pos hfp] at hrem
          obtain ⟨t', hrun, hlinked, hsame⟩ := removeProc_spec h x (hq ▸ hrem)
          have hfilter : (first :: rest).filter (fun e => e.1 ≠ p) = rest := by
            obtain ⟨a, i⟩ := first
            obtain rfl : a = p := hfp
            have honce : Once a ([] ++ (a, i) :: rest) := hone
            exact honce.filter
          have hdeq : dequeue q x = Function.update q x rest := by
            rw [dequeue, hq]
            rfl
          rw [hdeq] at hlinked hrun
          rw [hfilter]
          refine ⟨t', ?_, hlinked, hsame⟩
          rw [hq, hhandle] at hrun
          rw [hhandle]
          simp only [outProc, ProcLink.of] at hrun ⊢
          simp [hhead, ProcLink.of, hfp] at hrun ⊢
          simpa using hrun
        · obtain ⟨e, he, rfl⟩ := List.mem_map.mp hin
          obtain ⟨p, i⟩ := e
          have her : (p, i) ∈ rest := by
            refine (List.mem_cons.mp he).resolve_left ?_
            rintro rfl
            exact hfp rfl
          obtain ⟨mid, post, rfl⟩ := List.append_of_mem her
          obtain ⟨front, pred, hpred⟩ : ∃ front pred, first :: mid = front ++ [pred] :=
            ⟨_, _, (List.dropLast_append_getLast (by simp)).symm⟩
          exact outProc_later h hq hone (hrem.mid hone hfp) hhandle hhead hpred (Ne.symm hfp)
  · refine ⟨t, ?_, ?_, Untouched.refl free t⟩
    · rw [if_neg hin, filter_absent hin]
      exact outProc_absent h x hin
    · rw [filter_absent hin, Function.update_eq_self]
      exact h

theorem outProcLoop_prev {head currProc : ProcId} {curr_queue_idx : Slot} {fuel : ℕ} {c : Cursor}
    (h : outProcLoop t p head fuel currProc curr_queue_idx = some (some c)) (hp : currProc ≠ p) :
    c.prevProc ≠ p ∧ c.currProc = p := by
  induction fuel generalizing currProc curr_queue_idx with
  | zero => cases h
  | succ fuel ih =>
      obtain ⟨nextProc, -, h⟩ := Option.bind_eq_some_iff.mp h
      split at h
      · cases h
      · obtain ⟨next_queue_idx, -, h⟩ := Option.bind_eq_some_iff.mp h
        split at h
        · next hn =>
            simp only [Option.some.injEq] at h
            rw [← h]
            exact ⟨hp, hn⟩
        · next hn => exact ih h hn

-- Whatever the table holds, outProc clears at most one link of the process, and
-- counts one queue less when it does.
theorem outProc_own {tp tp' : ProcLink} {out : Option ProcId}
    (h : outProc t tp p = some (t', tp', out)) :
    (out = none ∧ t' = t ∧ tp' = tp) ∨ (out = some p ∧
      (∃ i, ∀ j, t'.link p j = if j = i then .null else t.link p j) ∧
      ∀ p', (t' p').qcount = if p' = p then (t p').qcount - 1 else (t p').qcount) := by
  have hlink : ∀ (u : ProcTable) (i j : Slot), ((u.setLink p i .null).addQcount p (-1)).link p j =
      if j = i then .null else u.link p j := by
    intro u i j
    rw [ProcTable.link_addQcount]
    by_cases hj : j = i
    · rw [hj, ProcTable.link_setLink_self, if_pos rfl]
    · rw [ProcTable.link_setLink_of_ne _ _ _ _ _ _ (by simpa using hj), if_neg hj]
  have hcount : ∀ (u : ProcTable) (i : Slot) p', ((u.setLink p i .null).addQcount p (-1) p').qcount =
      if p' = p then (u p').qcount - 1 else (u p').qcount := by
    intro u i p'
    by_cases hp : p' = p
    · simp [hp, Int.sub_eq_add_neg]
    · simp [hp, ProcTable.qcount_addQcount_of_ne]
  unfold outProc at h
  split at h
  · simp only [Option.some.injEq, Prod.mk.injEq] at h
    exact Or.inl ⟨h.2.2.symm, h.1.symm, h.2.1.symm⟩
  · next tailProc htail =>
      obtain ⟨j, hj, h⟩ := Option.bind_eq_some_iff.mp h
      dsimp only at h
      split at h
      · next hhead =>
          refine Or.inr ?_
          simp only [removeProc, htail, hj, hhead, Option.bind_eq_bind, Option.bind_some,
            Option.some.injEq] at h
          split at h
          · next hp =>
              subst hp
              simp only [Option.some.injEq, Prod.mk.injEq] at h
              obtain ⟨rfl, -, rfl⟩ := h
              exact ⟨rfl, ⟨j, hlink t j⟩, hcount t j⟩
          · next hp =>
              obtain ⟨i, -, h⟩ := Option.bind_eq_some_iff.mp h
              simp only [Option.some.injEq, Prod.mk.injEq] at h
              obtain ⟨rfl, -, rfl⟩ := h
              refine ⟨rfl, ⟨j, fun j' => ?_⟩, fun p' => ?_⟩
              · rw [hlink, ProcTable.link_setLink_of_ne _ _ _ _ _ _ (by simp [hp])]
              · rw [hcount, ProcTable.qcount_setLink]
      · next hhead =>
          obtain ⟨headProc, hn, h⟩ := Option.bind_eq_some_iff.mp h
          obtain ⟨i, -, h⟩ := Option.bind_eq_some_iff.mp h
          obtain ⟨c, hc, h⟩ := Option.bind_eq_some_iff.mp h
          have hne : headProc ≠ p := fun heq => hhead (heq ▸ hn)
          cases c with
          | none =>
              simp only [Option.some.injEq, Prod.mk.injEq] at h
              exact Or.inl ⟨h.2.2.symm, h.1.symm, h.2.1.symm⟩
          | some c =>
              simp only [Option.some.injEq, Prod.mk.injEq] at h
              obtain ⟨rfl, -, rfl⟩ := h
              have hprev := (outProcLoop_prev hc hne).1
              refine Or.inr ⟨rfl, ⟨c.curr_queue_idx, fun j' => ?_⟩, fun p' => ?_⟩
              · rw [hlink, ProcTable.link_setLink_of_ne _ _ _ _ _ _ (by simp [hprev.symm])]
              · rw [hcount, ProcTable.qcount_setLink]

end Out

end Hoca
