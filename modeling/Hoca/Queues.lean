import Hoca.Links
import Hoca.Procq

namespace Hoca

open Links

-- A place in a queue: a process and the p_link entry it uses there.
abbrev Node := ProcId × Slot

-- readyQueue, or the queue of a semaphore.
abbrev QueueId := Option Addr

namespace ProcLink

def node (l : ProcLink) : Option Node :=
  match l.next, l.index with
  | some p, some i => some (p, i)
  | _, _ => none

def of : Option Node → ProcLink
  | none => .null
  | some (p, i) => ⟨some i, some p⟩

@[simp] theorem node_of (e : Option Node) : (of e).node = e := by
  cases e <;> rfl

theorem eq_of_node {l : ProcLink} {e : Node} (h : l.node = some e) : l = of (some e) := by
  obtain ⟨index, next⟩ := l
  cases index <;> cases next <;> simp_all [node, of]
  subst h
  simp

@[simp] theorem of_next (p : ProcId) (i : Slot) : (of (some (p, i))).next = some p := rfl

@[simp] theorem of_index (p : ProcId) (i : Slot) : (of (some (p, i))).index = some i := rfl

@[simp] theorem of_none : of none = .null := rfl

@[simp] theorem null_next : null.next = none := rfl

theorem of_some_next_ne (e : Node) : (of (some e)).next ≠ none := by
  obtain ⟨p, i⟩ := e
  simp

end ProcLink

-- The tail pointer of a queue.
def handle (nodes : List Node) : ProcLink := .of nodes.getLast?

@[simp] theorem handle_nil : handle [] = .null := rfl

@[simp] theorem handle_snoc (front : List Node) (e : Node) :
    handle (front ++ [e]) = .of (some e) := by
  simp [handle]

namespace ProcTable

def succ (t : ProcTable) (e : Node) : Option Node := (t.link e.1 e.2).node

variable (t : ProcTable) (p p' : ProcId) (i i' : Slot) (l : ProcLink) (n : Int)

@[simp] theorem link_setLink_self : (t.setLink p i l).link p i = l := by
  simp [link, setLink]

theorem link_setLink_of_ne (h : (p', i') ≠ (p, i)) :
    (t.setLink p i l).link p' i' = t.link p' i' := by
  by_cases hp : p' = p
  · subst hp
    have hi : i' ≠ i := by
      rintro rfl
      exact h rfl
    simp [link, setLink, hi]
  · simp [link, setLink, hp]

-- What a write to a link, or to the number of links, leaves as it is.
theorem setLink_frame {α : Sort*} (f : Proc → α)
    (hf : ∀ (q : Proc) links, f { q with p_link := links } = f q) :
    f (t.setLink p i l p') = f (t p') := by
  by_cases hp : p' = p
  · subst hp
    rw [setLink, Function.update_self, hf]
  · rw [setLink, Function.update_of_ne hp]

theorem addQcount_frame {α : Sort*} (f : Proc → α)
    (hf : ∀ (q : Proc) qcount, f { q with qcount := qcount } = f q) :
    f (t.addQcount p n p') = f (t p') := by
  by_cases hp : p' = p
  · subst hp
    rw [addQcount, Function.update_self, hf]
  · rw [addQcount, Function.update_of_ne hp]

@[simp] theorem link_addQcount : (t.addQcount p n).link p' i' = t.link p' i' :=
  t.addQcount_frame p p' n (fun q => q.p_link i') fun _ _ => rfl

@[simp] theorem qcount_setLink : (t.setLink p i l p').qcount = (t p').qcount :=
  t.setLink_frame p p' i l (fun q => q.qcount) fun _ _ => rfl

@[simp] theorem qcount_addQcount_self : (t.addQcount p n p).qcount = (t p).qcount + n := by
  simp [addQcount]

theorem qcount_addQcount_of_ne (h : p' ≠ p) :
    (t.addQcount p n p').qcount = (t p').qcount := by
  simp [addQcount, h]

@[simp] theorem setLink_toKin : (t.setLink p i l p').toKin = (t p').toKin :=
  t.setLink_frame p p' i l Proc.toKin fun _ _ => rfl

@[simp] theorem setLink_toContext : (t.setLink p i l p').toContext = (t p').toContext :=
  t.setLink_frame p p' i l Proc.toContext fun _ _ => rfl

@[simp] theorem setLink_semvec : (t.setLink p i l p').semvec = (t p').semvec :=
  t.setLink_frame p p' i l (fun q => q.semvec) fun _ _ => rfl

@[simp] theorem addQcount_toKin : (t.addQcount p n p').toKin = (t p').toKin :=
  t.addQcount_frame p p' n Proc.toKin fun _ _ => rfl

@[simp] theorem addQcount_toContext : (t.addQcount p n p').toContext = (t p').toContext :=
  t.addQcount_frame p p' n Proc.toContext fun _ _ => rfl

@[simp] theorem addQcount_semvec : (t.addQcount p n p').semvec = (t p').semvec :=
  t.addQcount_frame p p' n (fun q => q.semvec) fun _ _ => rfl

theorem link_eq_of_succ {t : ProcTable} {e e' : Node} (h : t.succ e = some e') :
    t.link e.1 e.2 = .of (some e') :=
  ProcLink.eq_of_node h

end ProcTable

open Classical in
-- The p_link entries of a process that are in use.
noncomputable def occupied (q : QueueId → List Node) (p : ProcId) : Finset Slot :=
  Finset.univ.filter fun i => ∃ x, (p, i) ∈ q x

theorem mem_occupied {q : QueueId → List Node} {p : ProcId} {i : Slot} :
    i ∈ occupied q p ↔ ∃ x, (p, i) ∈ q x := by
  simp [occupied]

-- The process table holds exactly the queues `q`: each is a ring of its own
-- nodes, and an allocated process uses no other entries of p_link.
structure Linked (t : ProcTable) (free : List ProcId) (q : QueueId → List Node) : Prop where
  ring : ∀ x, Ring t.succ (q x)
  nodup : ∀ x, (q x).Nodup
  apart : ∀ x y e, e ∈ q x → e ∈ q y → x = y
  slot : ∀ p ∉ free, ∀ i, (t.link p i).next = none ↔ ∀ x, (p, i) ∉ q x
  qcount : ∀ p, (t p).qcount = (occupied q p).card
  idle : ∀ p ∈ free, ∀ x i, (p, i) ∉ q x

-- What the queue operations leave alone: the tree, the saved states and the
-- links of the free entries.
structure Untouched (free : List ProcId) (t t' : ProcTable) : Prop where
  kin : ∀ p, (t' p).toKin = (t p).toKin
  context : ∀ p, (t' p).toContext = (t p).toContext
  links : ∀ p ∈ free, ∀ i, t'.link p i = t.link p i

theorem Untouched.trans {free : List ProcId} {t t' t'' : ProcTable}
    (h : Untouched free t t') (h' : Untouched free t' t'') : Untouched free t t'' where
  kin p := (h'.kin p).trans (h.kin p)
  context p := (h'.context p).trans (h.context p)
  links p hp i := (h'.links p hp i).trans (h.links p hp i)

theorem Untouched.refl (free : List ProcId) (t : ProcTable) : Untouched free t t :=
  ⟨fun _ => rfl, fun _ => rfl, fun _ _ _ => rfl⟩

open Classical in
-- The entry of p_link the next insertion of the process takes.
noncomputable def freeSlot (q : QueueId → List Node) (p : ProcId) : Slot :=
  ((List.finRange SEMMAX).find? fun i => ∀ x, (p, i) ∉ q x).getD 0

-- A queue with its first node cut off, with one process taken out, with one appended.
def dequeue (q : QueueId → List Node) (x : QueueId) : QueueId → List Node :=
  Function.update q x (q x).tail

def withdraw (q : QueueId → List Node) (x : QueueId) (p : ProcId) : QueueId → List Node :=
  Function.update q x ((q x).filter fun e => e.1 ≠ p)

noncomputable def enqueue (q : QueueId → List Node) (x : QueueId) (p : ProcId) :
    QueueId → List Node :=
  Function.update q x (q x ++ [(p, freeSlot q p)])

-- The queues without a process, and the semaphores raised once for each queue
-- it was on.
def expel (q : QueueId → List Node) (p : ProcId) : QueueId → List Node
  | none => q none
  | some s => (q (some s)).filter fun e => e.1 ≠ p

def raise (sem : Addr → Int) (q : QueueId → List Node) (p : ProcId) : Addr → Int :=
  fun s => if p ∈ (q (some s)).map Prod.fst then toLong (sem s + 1) else sem s

-- removeProc clears the head's link at the index of the tail, which is the
-- right one when head and tail use the same index.
def CleanHead (nodes : List Node) : Prop :=
  nodes.head?.map Prod.snd = nodes.getLast?.map Prod.snd

instance (nodes : List Node) : Decidable (CleanHead nodes) :=
  inferInstanceAs (Decidable (_ = _))

variable {q : QueueId → List Node} {p : ProcId}

theorem occupied_eq_empty {q : QueueId → List Node} (h : ∀ x, p ∉ (q x).map Prod.fst) :
    occupied q p = ∅ := by
  ext i
  simp only [mem_occupied, Finset.notMem_empty, iff_false, not_exists]
  exact fun x hx => h x (List.mem_map_of_mem hx)

theorem occupied_empty_iff {q : QueueId → List Node} :
    occupied q p = ∅ ↔ ∀ x, p ∉ (q x).map Prod.fst := by
  refine ⟨fun h x hx => ?_, occupied_eq_empty⟩
  obtain ⟨e, he, rfl⟩ := List.mem_map.mp hx
  have hm := mem_occupied.mpr ⟨x, he⟩
  rw [h] at hm
  simp at hm

theorem freeSlot_eq_zero (h : ∀ x, (p, 0) ∉ q x) : freeSlot q p = 0 := by
  unfold freeSlot
  rw [show List.finRange SEMMAX = 0 :: (List.finRange 9).map Fin.succ from List.finRange_succ,
    List.find?_cons_of_pos (by simpa using h)]
  rfl

theorem freeSlot_eq_one (h : ∃ x, (p, 0) ∈ q x) (h1 : ∀ x, (p, 1) ∉ q x) :
    freeSlot q p = 1 := by
  unfold freeSlot
  rw [show List.finRange SEMMAX = 0 :: 1 :: (List.finRange 8).map (Fin.succ ∘ Fin.succ) by
    decide, List.find?_cons_of_neg (by simpa using h), List.find?_cons_of_pos (by simpa using h1)]
  rfl

theorem freeSlot_zero {q : QueueId → List Node} (h : ∀ x, p ∉ (q x).map Prod.fst) :
    freeSlot q p = 0 :=
  freeSlot_eq_zero fun x hx => h x (List.mem_map_of_mem hx)

theorem enqueue_ne_nil (x y : QueueId) : enqueue q x p y ≠ [] ↔ y = x ∨ q y ≠ [] := by
  by_cases hy : y = x
  · subst hy
    simp [enqueue]
  · simp [enqueue, hy]

theorem enqueue_of_ne {x y : QueueId} (h : y ≠ x) : enqueue q x p y = q y := by
  simp [enqueue, h]

theorem dequeue_of_ne {x y : QueueId} (h : y ≠ x) : dequeue q x y = q y := by
  simp [dequeue, h]

theorem withdraw_of_ne {x y : QueueId} (h : y ≠ x) : withdraw q x p y = q y := by
  simp [withdraw, h]

theorem dequeue_sublist (q : QueueId → List Node) (x y : QueueId) :
    (dequeue q x y).Sublist (q y) := by
  by_cases hy : y = x
  · subst hy
    rw [dequeue, Function.update_self]
    exact List.tail_sublist _
  · rw [dequeue_of_ne hy]

theorem filter_absent {nodes : List Node} (h : p ∉ nodes.map Prod.fst) :
    nodes.filter (fun e => e.1 ≠ p) = nodes := by
  refine List.filter_eq_self.mpr fun e he => ?_
  have hne : e.1 ≠ p := fun heq => h (heq ▸ List.mem_map_of_mem he)
  simpa using hne

theorem handle_next_ne {nodes : List Node} (h : nodes ≠ []) : (handle nodes).next ≠ none := by
  cases nodes using List.reverseRecOn with
  | nil => exact absurd rfl h
  | append_singleton front e =>
      rw [handle_snoc]
      exact ProcLink.of_some_next_ne e

theorem cleanHead_of_slot {nodes : List Node} {i : Slot} (h : ∀ e ∈ nodes, e.2 = i) :
    CleanHead nodes := by
  cases hn : nodes with
  | nil => rfl
  | cons e rest =>
      have hl := List.getLast_mem (l := e :: rest) (by simp)
      rw [CleanHead, List.getLast?_eq_some_getLast (by simp), List.head?_cons, Option.map_some,
        Option.map_some, h e (by simp [hn]), h _ (hn ▸ hl)]

end Hoca
