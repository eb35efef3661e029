import Hoca.Refine.Asl
import Hoca.Sched.Laws

namespace Hoca

open Links

-- A free entry keeps its saved state and its trap vectors, and nothing else.
structure Cleared (t : ProcTable) (p : ProcId) : Prop where
  kin : (t p).toKin = ⟨none, none, none⟩
  links : ∀ i, i ≠ 0 → t.link p i = .null
  index : (t.link p 0).index = none

-- The free list runs through the first entry of p_link.
structure FreeList (t : ProcTable) (first : Option ProcId) (free : List ProcId) : Prop where
  chain : Chain (fun p => (t.link p 0).next) first free
  nodup : free.Nodup
  cleared : ∀ p ∈ free, Cleared t p

-- The kernel stands for the abstract one, the tree of the processes left aside.
structure Core (k : Kernel) (v : Sched) : Prop where
  env : k.toEnv = v.toEnv
  queued : Queued k v.free v.queue
  free : FreeList k.procTable k.procFree_h v.free
  context : ∀ p, (k.procTable p).toContext = v.context p

-- The tree has not been touched.
def SameKin (k k' : Kernel) : Prop := ∀ p, (k'.procTable p).toKin = (k.procTable p).toKin

theorem SameKin.refl (k : Kernel) : SameKin k k := fun _ => rfl

theorem SameKin.trans {k k' k'' : Kernel} (h : SameKin k k') (h' : SameKin k' k'') :
    SameKin k k'' :=
  fun p => (h' p).trans (h p)

variable {k k' : Kernel} {v : Sched} {t t' : ProcTable} {first : Option ProcId}
  {free : List ProcId} {p : ProcId}

theorem FreeList.congr (h : FreeList t first free)
    (hlinks : ∀ p ∈ free, ∀ i, t'.link p i = t.link p i)
    (hkin : ∀ p ∈ free, (t' p).toKin = (t p).toKin) : FreeList t' first free where
  chain := h.chain.congr fun p hp => by rw [hlinks p hp]
  nodup := h.nodup
  cleared p hp :=
    { kin := (hkin p hp).trans (h.cleared p hp).kin
      links := fun i hi => (hlinks p hp i).trans ((h.cleared p hp).links i hi)
      index := by
        rw [hlinks p hp]
        exact (h.cleared p hp).index }

-- A queue operation on both sides.
theorem Core.requeue (h : Core k v) {q : QueueId → List Node} (hq : Queued k' v.free q)
    (hf : Framed v.free k k') : Core k' { v with queue := q } ∧ SameKin k k' := by
  refine ⟨⟨hf.env.trans h.env, hq, ?_, fun p => (hf.table.context p).trans (h.context p)⟩,
    hf.table.kin⟩
  rw [hf.procFree]
  exact h.free.congr hf.table.links fun p _ => hf.table.kin p

theorem Core.length_free (h : Core k v) : v.free.length ≤ MAXPROC := by
  have hc := h.free.nodup.length_le_card
  simpa using hc

section Context

theorem link_context (t : ProcTable) (p p' : ProcId) (i : Slot) (c : Context) :
    ProcTable.link (Function.update t p { t p with toContext := c }) p' i = t.link p' i := by
  by_cases hp : p' = p
  · subst hp
    simp [ProcTable.link]
  · simp [ProcTable.link, hp]

theorem Core.setContext (h : Core k v) (p : ProcId) (c : Context) :
    Core (k.setContext p c) (v.setContext p c) ∧ SameKin k (k.setContext p c) := by
  have hkin : SameKin k (k.setContext p c) := by
    intro p'
    by_cases hp : p' = p
    · subst hp
      simp [Kernel.setContext]
    · simp [Kernel.setContext, hp]
  have hcount : ∀ p', ((k.setContext p c).procTable p').qcount = (k.procTable p').qcount := by
    intro p'
    by_cases hp : p' = p
    · subst hp
      simp [Kernel.setContext]
    · simp [Kernel.setContext, hp]
  refine ⟨⟨h.env, ⟨h.queued.linked.congr (fun p' i => link_context _ _ _ _ _) hcount,
    h.queued.ready, ?_⟩, h.free.congr (fun p' _ i => link_context _ _ _ _ _) fun p' _ => hkin p',
    ?_⟩, hkin⟩
  · obtain ⟨asl, spare, ha⟩ := h.queued.active
    exact ⟨asl, spare, ha.toDescriptors, ha.all, ha.tail, ha.complete⟩
  · intro p'
    by_cases hp : p' = p
    · subst hp
      simp [Kernel.setContext, Sched.setContext]
    · simp [Kernel.setContext, Sched.setContext, hp, h.context p']

-- A write outside the table and the queues.
theorem Core.setEnv (h : Core k v) (env : Env) :
    Core { k with toEnv := env } { v with toEnv := env } := by
  refine ⟨rfl, ⟨h.queued.linked, h.queued.ready, ?_⟩, h.free, h.context⟩
  obtain ⟨asl, spare, ha⟩ := h.queued.active
  exact ⟨asl, spare, ha.toDescriptors, ha.all, ha.tail, ha.complete⟩

end Context

section Free

theorem Linked.allocate {q : QueueId → List Node} (h : Linked t (p :: free) q)
    (hc : Cleared t p) : Linked (t.setLink p 0 .null) free q := by
  have hidle := h.idle p (by simp)
  have hlink : ∀ e x, e ∈ q x → (t.setLink p 0 .null).link e.1 e.2 = t.link e.1 e.2 := by
    intro e x he
    refine ProcTable.link_setLink_of_ne _ _ _ _ _ _ fun heq => ?_
    rw [Prod.mk.injEq] at heq
    exact hidle x e.2 (heq.1 ▸ he)
  refine ⟨fun x => (h.ring x).congr fun e he => ?_, h.nodup, h.apart, ?_, ?_, ?_⟩
  · rw [ProcTable.succ, ProcTable.succ, hlink e x he]
  · intro p' hp' i
    by_cases heq : p' = p
    · subst heq
      refine ⟨fun _ x => hidle x i, fun _ => ?_⟩
      by_cases hi : i = 0
      · simp [hi]
      · rw [ProcTable.link_setLink_of_ne _ _ _ _ _ _ (by simp [hi]), hc.links i hi]
        rfl
    · rw [ProcTable.link_setLink_of_ne _ _ _ _ _ _ (by simp [heq])]
      exact h.slot p' (by simp [heq, hp']) i
  · intro p'
    rw [ProcTable.qcount_setLink]
    exact h.qcount p'
  · exact fun p' hp' => h.idle p' (List.mem_cons_of_mem _ hp')

theorem FreeList.allocProc_empty (h : FreeList k.procTable k.procFree_h []) :
    k.allocProc = (k, none) := by
  have hc := (chain_nil _).mp h.chain
  simp [Kernel.allocProc, hc]

-- allocProc takes the first entry of the free list.
theorem FreeList.allocProc (h : FreeList k.procTable k.procFree_h (p :: free)) :
    k.allocProc = ({ k with
      procFree_h := (k.procTable.link p 0).next
      procTable := k.procTable.setLink p 0 .null }, some p) ∧
    FreeList (k.procTable.setLink p 0 .null) (k.procTable.link p 0).next free := by
  obtain ⟨hfirst, hchain⟩ := chain_cons.mp h.chain
  obtain ⟨hp, hnodup⟩ := List.nodup_cons.mp h.nodup
  have hlink : ∀ p' ∈ free, ∀ i, (k.procTable.setLink p 0 .null).link p' i = k.procTable.link p' i := by
    intro p' hp' i
    have hne : p' ≠ p := fun heq => hp (heq ▸ hp')
    exact ProcTable.link_setLink_of_ne _ _ _ _ _ _ (by simp [hne])
  have hrest : FreeList k.procTable (k.procTable.link p 0).next free :=
    ⟨hchain, hnodup, fun p' hp' => h.cleared p' (List.mem_cons_of_mem _ hp')⟩
  refine ⟨by simp [Kernel.allocProc, hfirst], hrest.congr hlink fun p' _ => ?_⟩
  rw [ProcTable.setLink_toKin]

theorem allocProc_none (h : Core k v) (hfree : v.free = []) : k.allocProc = (k, none) :=
  FreeList.allocProc_empty (hfree ▸ h.free)

theorem allocProc_spec (h : Core k v) (hfree : v.free = p :: free) :
    ∃ k', k.allocProc = (k', some p) ∧ Core k' { v with free := free } ∧ SameKin k k' := by
  have hlist : FreeList k.procTable k.procFree_h (p :: free) := hfree ▸ h.free
  have hlinked : Linked k.procTable (p :: free) v.queue := hfree ▸ h.queued.linked
  obtain ⟨hrun, hrest⟩ := hlist.allocProc
  refine ⟨_, hrun, ⟨h.env, ⟨hlinked.allocate (hlist.cleared p (by simp)), h.queued.ready, ?_⟩,
    hrest, fun p' => ?_⟩, fun p' => ?_⟩
  · obtain ⟨asl, spare, ha⟩ := h.queued.active
    exact ⟨asl, spare, ha.toDescriptors, ha.all, ha.tail, ha.complete⟩
  · simpa using h.context p'
  · simp

theorem Linked.release {q : QueueId → List Node} (h : Linked t free q)
    (hidle : ∀ x i, (p, i) ∉ q x) (hlink : ∀ p' ∉ free, p' ≠ p → ∀ i, t'.link p' i = t.link p' i)
    (hcount : ∀ p', (t' p').qcount = if p' = p then 0 else (t p').qcount) :
    Linked t' (free ++ [p]) q := by
  have hne : ∀ x, ∀ e ∈ q x, e.1 ≠ p := by
    rintro x ⟨p', i⟩ he rfl
    exact hidle x i he
  refine ⟨fun x => (h.ring x).congr fun e he => ?_, h.nodup, h.apart, ?_, ?_, ?_⟩
  · rw [ProcTable.succ, ProcTable.succ, hlink e.1 (h.allocated he) (hne x e he)]
  · intro p' hp' i
    simp only [List.mem_append, List.mem_singleton, not_or] at hp'
    rw [hlink p' hp'.1 hp'.2]
    exact h.slot p' hp'.1 i
  · intro p'
    rw [hcount, h.qcount]
    split
    · next heq =>
        subst heq
        have he : occupied q p' = ∅ := by
          ext i
          simpa [mem_occupied] using fun x => hidle x i
        simp [he]
    · rfl
  · intro p' hp' x i
    rcases List.mem_append.mp hp' with hp' | hp'
    · exact h.idle p' hp' x i
    · rw [List.mem_singleton] at hp'
      exact hp' ▸ hidle x i

-- The table after the process has been reset.
def resetTable (t : ProcTable) (p : ProcId) : ProcTable :=
  Function.update t p (resetProcess (t p))

theorem resetTable_field {α : Type} (f : Proc → α) (t : ProcTable) (p p' : ProcId) :
    f (resetTable t p p') = if p' = p then f (resetProcess (t p)) else f (t p') := by
  rw [resetTable, Function.update_apply, apply_ite f]

theorem resetTable_link (t : ProcTable) (p p' : ProcId) (i : Slot) :
    (resetTable t p).link p' i = if p' = p then .null else t.link p' i :=
  resetTable_field (fun q => q.p_link i) t p p'

theorem resetTable_kin (t : ProcTable) (p p' : ProcId) :
    (resetTable t p p').toKin = if p' = p then ⟨none, none, none⟩ else (t p').toKin :=
  resetTable_field Proc.toKin t p p'

theorem resetTable_qcount (t : ProcTable) (p p' : ProcId) :
    (resetTable t p p').qcount = if p' = p then 0 else (t p').qcount :=
  resetTable_field (fun q => q.qcount) t p p'

theorem resetTable_semvec (t : ProcTable) (p p' : ProcId) :
    (resetTable t p p').semvec = if p' = p then fun _ => none else (t p').semvec :=
  resetTable_field (fun q => q.semvec) t p p'

theorem Core.resetContext (h : Core k v) (p p' : ProcId) :
    (resetTable k.procTable p p').toContext =
      Function.update v.context p
        { v.context p with last_start_time := 0, total_processor_time := 0 } p' := by
  by_cases hp : p' = p
  · subst hp
    simp [resetTable, resetProcess, ← h.context]
  · simp [resetTable, hp, h.context]

theorem FreeList.reset (h : FreeList t first free) (hp : p ∉ free) :
    FreeList (resetTable t p) first free := by
  have hne : ∀ p' ∈ free, p' ≠ p := fun p' hp' heq => hp (heq ▸ hp')
  refine h.congr (fun p' hp' i => ?_) fun p' hp' => ?_
  · rw [resetTable_link, if_neg (hne p' hp')]
  · rw [resetTable_kin, if_neg (hne p' hp')]

-- The walk of freeProc ends at the last entry of the list.
theorem FreeList.lastFree_eq {front : List ProcId} {a f : ProcId}
    (h : FreeList t (some f) (front ++ [a])) :
    Kernel.lastFree t MAXPROC f = some a ∧ (t.link a 0).next = none := by
  refine ⟨h.chain.lastCell_eq MAXPROC ?_, h.chain.2.next_last⟩
  have hl := h.nodup.length_le_card
  simp only [List.length_append, List.length_singleton, Fintype.card_fin] at hl
  exact hl

-- freeProc puts the entry at the end of the list: of the others it only writes the
-- first link of the entry that was last.
theorem FreeList.freeProc (h : FreeList k.procTable k.procFree_h free) (hp : p ∉ free) :
    ∃ t first, k.freeProc p = some { k with procTable := t, procFree_h := first } ∧
      FreeList t first (free ++ [p]) ∧ (∀ p' ∉ free, t p' = resetTable k.procTable p p') ∧
      ∀ p', t p' = { resetTable k.procTable p p' with p_link := (t p').p_link } := by
  have hlink := resetTable_link k.procTable p
  have hkin := resetTable_kin k.procTable p
  have hne : ∀ p' ∈ free, p' ≠ p := fun p' hp' heq => hp (heq ▸ hp')
  have hreset := h.reset hp
  have hcleared : ∀ p' ∈ free ++ [p], Cleared (resetTable k.procTable p) p' := by
    intro p' hp'
    rcases List.mem_append.mp hp' with hp' | hp'
    · exact hreset.cleared p' hp'
    · rw [List.mem_singleton.mp hp']
      refine ⟨by rw [hkin, if_pos rfl], fun i _ => by rw [hlink, if_pos rfl], ?_⟩
      rw [hlink, if_pos rfl]
      rfl
  have hnodup : (free ++ [p]).Nodup := by
    rw [List.nodup_append]
    refine ⟨h.nodup, List.nodup_singleton p, fun a ha b hb => ?_⟩
    rw [List.mem_singleton.mp hb]
    exact hne a ha
  cases free using List.reverseRecOn with
  | nil =>
      have hnone := (chain_nil _).mp h.chain
      refine ⟨resetTable k.procTable p, some p, ?_, ⟨?_, hnodup, hcleared⟩, fun _ _ => rfl,
        fun _ => rfl⟩
      · simp [Kernel.freeProc, hnone, resetTable]
      · rw [List.nil_append, chain_cons, hlink, if_pos rfl]
        exact ⟨rfl, (chain_nil _).mpr rfl⟩
  | append_singleton front a =>
      obtain ⟨first, hfirst⟩ : ∃ first, k.procFree_h = some first := by
        rw [h.chain.1]
        cases front <;> simp
      rw [hfirst] at hreset
      obtain ⟨hlast, -⟩ := hreset.lastFree_eq
      let t := (resetTable k.procTable p).setLink a 0
        { (resetTable k.procTable p).link a 0 with next := some p }
      have hother : ∀ p' i, (p', i) ≠ (a, 0) → t.link p' i = (resetTable k.procTable p).link p' i :=
        fun p' i hpi => ProcTable.link_setLink_of_ne _ _ _ _ _ _ hpi
      have hap : p ≠ a := (hne a (by simp)).symm
      refine ⟨t, k.procFree_h, ?_, ⟨?_, hnodup, fun p' hp' => ?_⟩, fun p' hp' => ?_, fun p' => ?_⟩
      · simp only [Kernel.freeProc, hfirst]
        rw [show Function.update k.procTable p (resetProcess (k.procTable p)) =
          resetTable k.procTable p from rfl, hlast]
        rfl
      · rw [hfirst]
        refine hreset.chain.snoc (by simp [t]) ?_ fun p' hp' => ?_
        · rw [hother p 0 (by simp [hap]), hlink, if_pos rfl]
          rfl
        · rw [hother p' 0 fun heq => ?_]
          have hpa : p' = a := congrArg Prod.fst heq
          have hmem : a ∈ front := hpa ▸ hp'
          exact (List.nodup_append.mp h.nodup).2.2 a hmem a (by simp) rfl
      · have hc := hcleared p' hp'
        refine ⟨(ProcTable.setLink_toKin ..).trans hc.kin, fun i hi => ?_, ?_⟩
        · rw [hother p' i (by simp [hi])]
          exact hc.links i hi
        · by_cases hpa : p' = a
          · subst hpa
            rw [ProcTable.link_setLink_self]
            exact hc.index
          · rw [hother p' 0 (by simp [hpa])]
            exact hc.index
      · have hpa : p' ≠ a := fun heq => hp' (by simp [heq])
        exact Function.update_of_ne hpa _ _
      · by_cases hpa : p' = a
        · subst hpa
          simp [t, ProcTable.setLink]
        · simp [t, ProcTable.setLink, hpa]

theorem freeProc_spec (h : Core k v) (hp : p ∉ v.free) (hidle : ∀ x i, (p, i) ∉ v.queue x) :
    ∃ k', k.freeProc p = some k' ∧
      Core k' ({ v with free := v.free ++ [p] }.setContext p
        { v.context p with last_start_time := 0, total_processor_time := 0 }) ∧
      (∀ p', (k'.procTable p').toKin =
        if p' = p then ⟨none, none, none⟩ else (k.procTable p').toKin) := by
  obtain ⟨t, first, hrun, hlist, hsame, hlinks⟩ := h.free.freeProc hp
  obtain ⟨asl, spare, ha⟩ := h.queued.active
  have hlinked : Linked t (v.free ++ [p]) v.queue := by
    refine h.queued.linked.release hidle (fun p' hp' hpp i => ?_) fun p' => ?_
    · have hl : t.link p' i = (resetTable k.procTable p).link p' i :=
        congrArg (fun e => e.p_link i) (hsame p' hp')
      rw [hl, resetTable_link, if_neg hpp]
    · exact (congrArg (fun e => e.qcount) (hlinks p')).trans (resetTable_qcount k.procTable p p')
  refine ⟨_, hrun, ⟨h.env, ⟨hlinked, h.queued.ready, asl, spare, ha.toDescriptors, ha.all, ha.tail,
    ha.complete⟩, hlist, fun p' => ?_⟩, fun p' => ?_⟩
  · exact (congrArg Proc.toContext (hlinks p')).trans (h.resetContext p p')
  · exact (congrArg Proc.toKin (hlinks p')).trans (resetTable_kin k.procTable p p')

-- initProc puts the whole table into the list.
theorem freeList_initProc (k : Kernel) :
    FreeList k.initProc.procTable k.initProc.procFree_h (List.finRange MAXPROC) := by
  have hlink : ∀ p i, k.initProc.procTable.link p i = if i = 0 then
      ⟨none, if h : p.val + 1 < MAXPROC then some ⟨p.val + 1, h⟩ else none⟩ else .null := by
    intro p i
    simp only [Kernel.initProc, ProcTable.link]
    by_cases hi : i = 0
    · subst hi
      simp
    · simp [hi]
  refine ⟨chain_finRange fun a => ?_, List.nodup_finRange MAXPROC, fun p _ => ⟨rfl, fun i hi => ?_, ?_⟩⟩
  · rw [hlink, if_pos rfl]
  · rw [hlink, if_neg hi]
  · rw [hlink, if_pos rfl]

end Free

end Hoca
