import Hoca.Conservation

namespace Hoca

open Links Runs

-- What happens to the entries of procTable: allocProc, freeProc, and a write to the
-- fields of an entry.
inductive Allocation where
  | allocProc
  | freeProc (p : ProcId)
  | change (p : ProcId) (entry : Proc)

def Kernel.allocation : Allocation → Kernel → Option Kernel
  | .allocProc, k => some k.allocProc.1
  | .freeProc p, k => k.freeProc p
  | .change p entry, k => some { k with procTable := Function.update k.procTable p entry }

-- Beside the run: who has become free so far and who has been handed out, each in
-- order, and who is allocated.
structure Ledger where
  freed : List ProcId
  given : List ProcId
  allocated : Finset ProcId

namespace Ledger

-- initProc frees the entries in the order of the table.
def init : Ledger := ⟨List.finRange MAXPROC, [], ∅⟩

def give (g : Ledger) (p : ProcId) : Ledger :=
  { g with given := g.given ++ [p], allocated := insert p g.allocated }

def free (g : Ledger) (p : ProcId) : Ledger :=
  { g with freed := g.freed ++ [p], allocated := g.allocated.erase p }

def note (k : Kernel) : Allocation → Kernel → Ledger → Ledger
  | .allocProc, _, g => k.allocProc.2.elim g g.give
  | .freeProc p, _, g => g.free p
  | .change _ _, _, g => g

-- Only what is allocated is freed or written to.
def Allows (s : Kernel × Ledger) : Allocation → Prop
  | .allocProc => True
  | .freeProc p => p ∈ s.2.allocated
  | .change p _ => p ∈ s.2.allocated

instance (s : Kernel × Ledger) : ∀ a, Decidable (Allows s a)
  | .allocProc => isTrue trivial
  | .freeProc p => inferInstanceAs (Decidable (p ∈ s.2.allocated))
  | .change p _ => inferInstanceAs (Decidable (p ∈ s.2.allocated))

end Ledger

variable {k k' : Kernel} {g : Ledger} {free : List ProcId} {p : ProcId} {entry : Proc}
  {a : Allocation} {s : Kernel × Ledger}

-- An entry that is on no queue, waits for no semaphore and has no relatives.
def Proc.Blank (e : Proc) : Prop :=
  e.toQueueLinks = ⟨fun _ => .null, 0, fun _ => none⟩ ∧ e.toKin = ⟨none, none, none⟩

-- The free list has the entries that are not allocated, in the order in which they
-- became free, and nothing is left in them.
structure Pool (k : Kernel) (g : Ledger) (free : List ProcId) : Prop
    extends FreeList k.procTable k.procFree_h free where
  count : ∀ p ∈ free, (k.procTable p).qcount = 0
  vector : ∀ p ∈ free, (k.procTable p).semvec = fun _ => none
  apart : ∀ p, p ∈ free ↔ p ∉ g.allocated
  order : g.freed = g.given ++ free

section Step

theorem Pool.init (k : Kernel) : Pool k.initProc Ledger.init (List.finRange MAXPROC) where
  toFreeList := freeList_initProc k
  count _ _ := rfl
  vector _ _ := rfl
  apart p := by simp [Ledger.init]
  order := rfl

theorem Pool.allocProc (h : Pool k g (p :: free)) :
    ∃ k', k.allocProc = (k', some p) ∧ Pool k' (g.give p) free ∧ (k'.procTable p).Blank := by
  obtain ⟨hrun, hlist⟩ := h.toFreeList.allocProc
  have hcleared := h.cleared p (by simp)
  have hp := (List.nodup_cons.mp h.nodup).1
  have hne : ∀ p' ∈ free, p' ≠ p := fun p' hp' heq => hp (heq ▸ hp')
  have hvec : ∀ p', (k.procTable.setLink p 0 .null p').semvec = (k.procTable p').semvec :=
    fun p' => ProcTable.setLink_semvec ..
  refine ⟨_, hrun, ⟨hlist, fun p' hp' => ?_, fun p' hp' => ?_, fun p' => ?_, ?_⟩, ?_, ?_⟩
  · exact (ProcTable.qcount_setLink ..).trans (h.count p' (List.mem_cons_of_mem p hp'))
  · exact (hvec p').trans (h.vector p' (List.mem_cons_of_mem p hp'))
  · have hold := h.apart p'
    rw [List.mem_cons] at hold
    simp only [Ledger.give, Finset.mem_insert, not_or, ← hold]
    constructor
    · exact fun hm => ⟨hne p' hm, Or.inr hm⟩
    · exact fun hm => hm.2.resolve_left hm.1
  · simp [Ledger.give, h.order]
  · have hlinks : (k.procTable.setLink p 0 .null p).p_link = fun _ => .null := by
      funext i
      show (k.procTable.setLink p 0 .null).link p i = .null
      by_cases hi : i = 0
      · rw [hi, ProcTable.link_setLink_self]
      · rw [ProcTable.link_setLink_of_ne _ _ _ _ _ _ (by simp [hi])]
        exact hcleared.links i hi
    have hcount : (k.procTable.setLink p 0 .null p).qcount = 0 :=
      (ProcTable.qcount_setLink ..).trans (h.count p (by simp))
    rw [← hlinks, ← hcount, ← (hvec p).trans (h.vector p (by simp))]
  · exact (ProcTable.setLink_toKin ..).trans hcleared.kin

theorem Pool.freeProc (h : Pool k g free) (hp : p ∈ g.allocated) :
    ∃ k', k.freeProc p = some k' ∧ Pool k' (g.free p) (free ++ [p]) := by
  have hfree : p ∉ free := fun hm => (h.apart p).mp hm hp
  obtain ⟨t, first, hrun, hlist, -, hlinks⟩ := h.toFreeList.freeProc hfree
  have hold : ∀ p' ∈ free ++ [p], p' ≠ p → p' ∈ free := by
    intro p' hp' hne
    rw [List.mem_append, List.mem_singleton] at hp'
    exact hp'.resolve_right hne
  refine ⟨_, hrun, hlist, fun p' hp' => ?_, fun p' hp' => ?_, fun p' => ?_, ?_⟩
  · refine (congrArg (fun e => e.qcount) (hlinks p')).trans ((resetTable_qcount ..).trans ?_)
    split
    · rfl
    · next hne => exact h.count p' (hold p' hp' hne)
  · refine (congrArg (fun e => e.semvec) (hlinks p')).trans ((resetTable_semvec ..).trans ?_)
    split
    · rfl
    · next hne => exact h.vector p' (hold p' hp' hne)
  · rw [List.mem_append, List.mem_singleton, h.apart p']
    simp only [Ledger.free, Finset.mem_erase]
    tauto
  · simp [Ledger.free, h.order]

-- What is written to an allocated entry does not reach the list.
theorem Pool.change (h : Pool k g free) (hp : p ∈ g.allocated) (entry : Proc) :
    Pool { k with procTable := Function.update k.procTable p entry } g free := by
  have hsame : ∀ p' ∈ free, Function.update k.procTable p entry p' = k.procTable p' := by
    intro p' hp'
    refine Function.update_of_ne ?_ _ _
    rintro rfl
    exact (h.apart p').mp hp' hp
  refine ⟨h.toFreeList.congr (fun p' hp' i => ?_) fun p' hp' => ?_, fun p' hp' => ?_,
    fun p' hp' => ?_, h.apart, h.order⟩
  · exact congrArg (fun e => e.p_link i) (hsame p' hp')
  · exact congrArg Proc.toKin (hsame p' hp')
  · exact (congrArg (fun e => e.qcount) (hsame p' hp')).trans (h.count p' hp')
  · exact (congrArg (fun e => e.semvec) (hsame p' hp')).trans (h.vector p' hp')

theorem Pool.step (h : Pool s.1 s.2 free) (ha : Ledger.Allows s a) :
    ∃ s' free', watched Kernel.allocation Ledger.note a s = some s' ∧ Pool s'.1 s'.2 free' := by
  obtain ⟨k, g⟩ := s
  cases a with
  | allocProc =>
      cases free with
      | nil =>
          have hrun := h.toFreeList.allocProc_empty
          exact ⟨(k, g), [], by simp [watched, Kernel.allocation, Ledger.note, hrun], h⟩
      | cons p free =>
          obtain ⟨k', hrun, hpool, -⟩ := h.allocProc
          exact ⟨(k', g.give p), free, by simp [watched, Kernel.allocation, Ledger.note, hrun], hpool⟩
  | freeProc p =>
      obtain ⟨k', hrun, hpool⟩ := h.freeProc ha
      exact ⟨(k', g.free p), free ++ [p], by simp [watched, Kernel.allocation, Ledger.note, hrun], hpool⟩
  | change p entry => exact ⟨_, free, rfl, h.change ha entry⟩

end Step

-- What the free list says is true, and what allocProc and freeProc do with it.
structure Truthful (k : Kernel) (g : Ledger) : Prop where
  list : ∃ free, Chain (fun p => (k.procTable.link p 0).next) k.procFree_h free ∧ free.Nodup ∧
    ∀ p, p ∈ free ↔ p ∉ g.allocated
  full : k.allocProc.2 = none ↔ ∀ p, p ∈ g.allocated
  next : ∀ k' p, k.allocProc = (k', some p) →
    p ∉ g.allocated ∧ g.given ++ [p] <+: g.freed ∧ (k'.procTable p).Blank
  walk : ∀ p ∈ g.allocated, (∃ k', k.freeProc p = some k') ∧
    ∀ first, k.procFree_h = some first →
      ∃ last, Kernel.lastFree (resetTable k.procTable p) MAXPROC first = some last ∧
        ((resetTable k.procTable p).link last 0).next = none

theorem Pool.truthful (h : Pool k g free) : Truthful k g where
  list := ⟨free, h.chain, h.nodup, h.apart⟩
  full := by
    cases free with
    | nil =>
        rw [h.toFreeList.allocProc_empty]
        simpa using h.apart
    | cons p free =>
        obtain ⟨k', hrun, -⟩ := h.allocProc
        rw [hrun]
        have hp := (h.apart p).mp (by simp)
        exact iff_of_false nofun fun hall => hp (hall p)
  next k' p hrun := by
    cases free with
    | nil =>
        rw [h.toFreeList.allocProc_empty] at hrun
        cases hrun
    | cons p' free =>
        obtain ⟨k₁, hrun₁, -, hblank⟩ := h.allocProc
        rw [hrun₁] at hrun
        cases hrun
        refine ⟨(h.apart p).mp (by simp), ?_, hblank⟩
        rw [h.order, List.prefix_append_right_inj]
        exact List.cons_prefix_cons.mpr ⟨rfl, List.nil_prefix⟩
  walk p hp := by
    have hfree : p ∉ free := fun hm => (h.apart p).mp hm hp
    obtain ⟨k', hrun, -⟩ := h.freeProc hp
    refine ⟨⟨k', hrun⟩, fun first hfirst => ?_⟩
    have hreset := h.toFreeList.reset hfree
    rw [hfirst] at hreset
    cases free using List.reverseRecOn with
    | nil => cases (chain_nil _).mp hreset.chain
    | append_singleton front last => exact ⟨last, hreset.lastFree_eq⟩

-- Over any sequence of allocations, releases and writes to what is allocated the
-- free list has the rest of the table, first free first, and every call returns.
theorem procFree_truthful (k : Kernel) (as : List Allocation)
    (has : Along (watched Kernel.allocation Ledger.note) Ledger.Allows as
      (k.initProc, Ledger.init)) :
    ∃ s, run (watched Kernel.allocation Ledger.note) as (k.initProc, Ledger.init) = some s ∧
      Truthful s.1 s.2 := by
  obtain ⟨s, hrun, free, hpool⟩ := exists_run (I := fun s => ∃ free, Pool s.1 s.2 free)
    (fun s a ⟨free, h⟩ ha => by
      obtain ⟨s', free', hs, hpool⟩ := h.step ha
      exact ⟨s', hs, free', hpool⟩) ⟨_, Pool.init k⟩ has
  exact ⟨s, hrun, hpool.truthful⟩

namespace Sample

-- The allocations of p1test: the whole table and one more, then the last ten entries
-- go back and one of them is handed out and linked to itself.
def allocations : List Allocation :=
  List.replicate (MAXPROC + 1) .allocProc ++ ((List.finRange MAXPROC).drop 10).map .freeProc ++
    [.allocProc, .change 10 { cold.procTable 10 with p_link := fun _ => ⟨some 0, some 10⟩ }]

end Sample

theorem procFree_truthful_sample :
    ∃ s, run (watched Kernel.allocation Ledger.note) Sample.allocations
      (Sample.cold.initProc, Ledger.init) = some s ∧ Truthful s.1 s.2 :=
  procFree_truthful Sample.cold Sample.allocations (by decide +kernel)

end Hoca
