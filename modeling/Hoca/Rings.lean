import Hoca.Refine.Procq

namespace Hoca

open Links

-- The entries of p_link that are in use.
def used (t : ProcTable) (p : ProcId) : Finset Slot :=
  Finset.univ.filter fun i => (t.link p i).next ≠ none

-- The queues with the tail pointers `tp`, each with its entries from head to
-- tail. The processes in `free` have their p_link[0] in the free list.
structure WellFormed (t : ProcTable) (free : List ProcId) (tp : QueueId → ProcLink)
    (q : QueueId → List Node) : Prop where
  tail : ∀ x, tp x = handle (q x)
  ring : ∀ x, Ring t.succ (q x)
  nodup : ∀ x, (q x).Nodup
  apart : ∀ x y e, e ∈ q x → e ∈ q y → x = y
  qcount : ∀ p ∉ free, (t p).qcount = (used t p).card
  used : ∀ p ∉ free, ∀ i, i ∈ used t p ↔ ∃ x, (p, i) ∈ q x
  idle : ∀ p ∈ free, (t p).qcount = 0 ∧ ∀ x i, (p, i) ∉ q x

-- One entry more and one entry less is in use.
structure Taken (t t' : ProcTable) (p : ProcId) (i : Slot) : Prop where
  free : i ∉ used t p
  qcount : ∀ p', (t' p').qcount = if p' = p then (t p').qcount + 1 else (t p').qcount
  used : ∀ p', used t' p' = if p' = p then insert i (used t p') else used t p'

structure Freed (t t' : ProcTable) (p : ProcId) (i : Slot) : Prop where
  qcount : ∀ p', (t' p').qcount = if p' = p then (t p').qcount - 1 else (t p').qcount
  used : ∀ p', used t' p' = if p' = p then (used t p').erase i else used t p'

-- The links of the other queues.
def Elsewhere (t t' : ProcTable) (q : QueueId → List Node) (x : QueueId) : Prop :=
  ∀ y ≠ x, ∀ e ∈ q y, t'.link e.1 e.2 = t.link e.1 e.2

variable {t t' : ProcTable} {free : List ProcId} {tp : QueueId → ProcLink}
  {q : QueueId → List Node} {x : QueueId} {p : ProcId} {i : Slot}

theorem mem_used : i ∈ used t p ↔ (t.link p i).next ≠ none := by
  simp [used]

theorem Linked.used_eq (h : Linked t free q) (hp : p ∉ free) : used t p = occupied q p := by
  ext i
  rw [mem_used, mem_occupied, ne_eq, h.slot p hp i]
  push Not
  rfl

theorem Untouched.used_eq (h : Untouched free t t') (hp : p ∈ free) : used t' p = used t p := by
  ext i
  rw [mem_used, mem_used, h.links p hp i]

theorem wellFormed_iff : WellFormed t free tp q ↔ Linked t free q ∧ ∀ x, tp x = handle (q x) := by
  constructor
  · intro h
    have hused : ∀ p ∉ free, used t p = occupied q p := by
      intro p hp
      ext i
      rw [h.used p hp, mem_occupied]
    refine ⟨⟨h.ring, h.nodup, h.apart, fun p hp i => ?_, fun p => ?_, fun p hp => ?_⟩, h.tail⟩
    · have hi := (h.used p hp i).not
      rw [mem_used, not_not] at hi
      rw [hi]
      push Not
      rfl
    · by_cases hp : p ∈ free
      · have hno : ∀ x, p ∉ (q x).map Prod.fst := by
          intro x hx
          obtain ⟨⟨a, i⟩, he, rfl⟩ := List.mem_map.mp hx
          exact (h.idle a hp).2 x i he
        rw [(h.idle p hp).1, occupied_eq_empty hno]
        rfl
      · rw [h.qcount p hp, hused p hp]
    · exact (h.idle p hp).2
  · rintro ⟨h, htail⟩
    refine ⟨htail, h.ring, h.nodup, h.apart, fun p hp => ?_, fun p hp i => ?_, fun p hp => ?_⟩
    · rw [h.qcount p, h.used_eq hp]
    · rw [h.used_eq hp, mem_occupied]
    · refine ⟨?_, h.idle p hp⟩
      have hno : ∀ x, p ∉ (q x).map Prod.fst := by
        intro x hx
        obtain ⟨⟨a, i⟩, he, rfl⟩ := List.mem_map.mp hx
        exact h.idle a hp x i he
      rw [h.qcount p, occupied_eq_empty hno]
      rfl

theorem WellFormed.update (h : WellFormed t free tp q) {nodes : List Node}
    (hlinked : Linked t' free (Function.update q x nodes)) :
    WellFormed t' free (Function.update tp x (handle nodes)) (Function.update q x nodes) := by
  refine wellFormed_iff.mpr ⟨hlinked, fun y => ?_⟩
  by_cases hy : y = x
  · subst hy
    simp
  · rw [Function.update_of_ne hy, Function.update_of_ne hy, h.tail y]

-- Two tables that hold the same queue have the same links on it.
theorem ring_link_eq {nodes : List Node} (h : Ring t.succ nodes) (h' : Ring t'.succ nodes)
    {e : Node} (he : e ∈ nodes) : t'.link e.1 e.2 = t.link e.1 e.2 := by
  obtain ⟨front, back, rfl⟩ := List.append_of_mem he
  have hnext : ∀ {u : ProcTable}, Ring u.succ (front ++ e :: back) →
      u.succ e = back.head?.or (front ++ e :: back).head? := by
    intro u hu
    exact ((leads_append front (e :: back) _).mp hu).2.1
  obtain ⟨b, hb⟩ : ∃ b, back.head?.or (front ++ e :: back).head? = some b := by
    cases back <;> cases front <;> simp
  rw [ProcTable.link_eq_of_succ ((hnext h).trans hb),
    ProcTable.link_eq_of_succ ((hnext h').trans hb)]

theorem Linked.elsewhere {nodes : List Node} (h : Linked t free q)
    (h' : Linked t' free (Function.update q x nodes)) : Elsewhere t t' q x := by
  intro y hy e he
  have hring := h'.ring y
  rw [Function.update_of_ne hy] at hring
  exact ring_link_eq (h.ring y) hring he

theorem Linked.taken (h : Linked t free q) (hp : p ∉ free) (hnew : ∀ x, (p, i) ∉ q x)
    (h' : Linked t' free (Function.update q x (q x ++ [(p, i)]))) (hsame : Untouched free t t') :
    Taken t t' p i := by
  have hni : i ∉ occupied q p := fun hi => by
    obtain ⟨y, hy⟩ := mem_occupied.mp hi
    exact hnew y hy
  refine ⟨by rwa [h.used_eq hp], fun p' => ?_, fun p' => ?_⟩
  · rw [h'.qcount, h.qcount, occupied_snoc]
    by_cases heq : p' = p
    · subst heq
      rw [if_pos rfl, if_pos rfl, Finset.card_insert_of_notMem hni]
      push_cast
      rfl
    · rw [if_neg heq, if_neg heq]
  · by_cases hp' : p' ∈ free
    · have hne : p' ≠ p := fun heq => hp (heq ▸ hp')
      rw [if_neg hne, hsame.used_eq hp']
    · rw [h'.used_eq hp', h.used_eq hp', occupied_snoc]

theorem Linked.freed {nodes : List Node} (h : Linked t free q) (he : (p, i) ∈ q x)
    (hmem : ∀ e, e ∈ nodes ↔ e ∈ q x ∧ e ≠ (p, i))
    (h' : Linked t' free (Function.update q x nodes)) (hsame : Untouched free t t') :
    Freed t t' p i := by
  have hshrink := occupied_shrink h he hmem
  refine ⟨fun p' => ?_, fun p' => ?_⟩
  · rw [h'.qcount, h.qcount, hshrink]
    by_cases heq : p' = p
    · subst heq
      have hi : i ∈ occupied q p' := mem_occupied.mpr ⟨x, he⟩
      have hpos := Finset.card_pos.mpr ⟨i, hi⟩
      rw [if_pos rfl, if_pos rfl, Finset.card_erase_of_mem hi]
      omega
    · rw [if_neg heq, if_neg heq]
  · by_cases hp' : p' ∈ free
    · have hne : p' ≠ p := fun heq => h.allocated he (heq ▸ hp')
      rw [if_neg hne, hsame.used_eq hp']
    · rw [h'.used_eq hp', h.used_eq hp', hshrink]

namespace Sample

def entry (qcount : Int) (sem : Option Addr) (links : Slot → ProcLink) : Proc :=
  let s : State := ⟨fun _ => 0, ⟨false, false, false, 0, false, false, false, false, false⟩, 0, 0⟩
  { p_link := links, qcount := qcount, semvec := fun i => if i = 0 then sem else none,
    parent_proc := none, sibling_proc := none, children_proc := none,
    p_s := s, last_start_time := 0, total_processor_time := 0,
    trap_old_state := fun _ => none, trap_new_state := fun _ => none }

-- Process 0 is on readyQueue through its entry 0 and, through its entry 1, at
-- the head of a queue whose tail uses its entry 0.
def crossed : ProcTable := fun p =>
  entry (if p = 0 then 2 else if p = 2 then 1 else 0)
    (if p = 0 ∨ p = 2 then some 1024 else none) fun i =>
    if (p, i) = (0, 0) then ⟨some 0, some 0⟩
    else if (p, i) = (0, 1) then ⟨some 0, some 2⟩
    else if (p, i) = (2, 0) then ⟨some 1, some 0⟩
    else .null

def crossing : QueueId → List Node := fun x =>
  if x = none then [(0, 0)] else if x = some 1024 then [(0, 1), (2, 0)] else []

-- readyQueue and one other queue, and everybody allocated.
theorem wellFormed_pair {nodes nodes' : List Node} (hready : q none = nodes)
    (hsem : q (some 1024) = nodes') (hrest : ∀ s, s ≠ 1024 → q (some s) = [])
    (hring : Ring t.succ nodes ∧ Ring t.succ nodes') (hnodup : (nodes ++ nodes').Nodup)
    (hqcount : ∀ p, (t p).qcount = (Hoca.used t p).card)
    (hused : ∀ p i, i ∈ Hoca.used t p ↔ (p, i) ∈ nodes ++ nodes') :
    WellFormed t [] (fun x => handle (q x)) q := by
  have hcases : ∀ x, x = none ∧ q x = nodes ∨ x = some 1024 ∧ q x = nodes' ∨ q x = [] := by
    intro x
    cases x with
    | none => exact Or.inl ⟨rfl, hready⟩
    | some s =>
        by_cases hs : s = 1024
        · subst hs
          exact Or.inr (Or.inl ⟨rfl, hsem⟩)
        · exact Or.inr (Or.inr (hrest s hs))
  obtain ⟨hfirst, hsecond, hapart⟩ := List.nodup_append.mp hnodup
  refine ⟨fun _ => rfl, fun x => ?_, fun x => ?_, fun x y e hx hy => ?_, fun p _ => hqcount p,
    fun p _ i => ?_, fun p hp => absurd hp List.not_mem_nil⟩
  · rcases hcases x with ⟨-, hx⟩ | ⟨-, hx⟩ | hx
    · exact hx ▸ hring.1
    · exact hx ▸ hring.2
    · exact hx ▸ trivial
  · rcases hcases x with ⟨-, hx⟩ | ⟨-, hx⟩ | hx
    · exact hx ▸ hfirst
    · exact hx ▸ hsecond
    · exact hx ▸ List.nodup_nil
  · rcases hcases x with ⟨rfl, hqx⟩ | ⟨rfl, hqx⟩ | hqx <;>
      rcases hcases y with ⟨rfl, hqy⟩ | ⟨rfl, hqy⟩ | hqy <;>
      rw [hqx] at hx <;> rw [hqy] at hy
    all_goals first
      | rfl
      | exact absurd hx List.not_mem_nil
      | exact absurd hy List.not_mem_nil
      | exact absurd rfl (hapart e hx e hy)
      | exact absurd rfl (hapart e hy e hx)
  · rw [hused, List.mem_append]
    constructor
    · rintro (he | he)
      · exact ⟨none, hready ▸ he⟩
      · exact ⟨some 1024, hsem ▸ he⟩
    · rintro ⟨x, hx⟩
      rcases hcases x with ⟨-, hqx⟩ | ⟨-, hqx⟩ | hqx <;> rw [hqx] at hx
      · exact Or.inl hx
      · exact Or.inr hx
      · exact absurd hx List.not_mem_nil

theorem crossed_wellFormed :
    WellFormed crossed [] (fun x => handle (crossing x)) crossing :=
  wellFormed_pair rfl rfl (fun s hs => by simp [crossing, hs])
    ⟨⟨by decide, trivial⟩, by decide, by decide, trivial⟩ (by decide) (by decide) (by decide)

-- The same queues with a third process between the head and the tail of the second,
-- which use their entries 1.
def aligned : ProcTable := fun p =>
  entry (if p = 0 ∨ p = 3 then 2 else if p = 2 then 1 else 0)
    (if p = 0 ∨ p = 2 ∨ p = 3 then some 1024 else none) fun i =>
    if (p, i) = (0, 0) then ⟨some 0, some 3⟩
    else if (p, i) = (3, 0) then ⟨some 0, some 0⟩
    else if (p, i) = (0, 1) then ⟨some 0, some 2⟩
    else if (p, i) = (2, 0) then ⟨some 1, some 3⟩
    else if (p, i) = (3, 1) then ⟨some 1, some 0⟩
    else .null

def aligning : QueueId → List Node := fun x =>
  if x = none then [(0, 0), (3, 0)] else if x = some 1024 then [(0, 1), (2, 0), (3, 1)] else []

theorem aligned_wellFormed :
    WellFormed aligned [] (fun x => handle (aligning x)) aligning :=
  wellFormed_pair rfl rfl (fun s hs => by simp [aligning, hs])
    ⟨⟨by decide, by decide, trivial⟩, by decide, by decide, by decide, trivial⟩ (by decide)
    (by decide) (by decide)

end Sample

-- insertProc appends the process, through an entry of p_link that was free.
theorem insertProc_enqueues (h : WellFormed t free tp q) (x : QueueId) (hp : p ∉ free)
    (hc : (t p).qcount < SEMMAX) :
    ∃ t' i, insertProc t (tp x) p = some (t', ⟨some i, some p⟩) ∧ Taken t t' p i ∧
      WellFormed t' free (Function.update tp x ⟨some i, some p⟩)
        (Function.update q x (q x ++ [(p, i)])) ∧
      (q x ≠ [] → headQueue t' ⟨some i, some p⟩ = headQueue t (tp x)) ∧
      Elsewhere t t' q x ∧ Untouched free t t' := by
  obtain ⟨hlinked, htail⟩ := wellFormed_iff.mp h
  have hcard : (occupied q p).card < SEMMAX := by
    rw [hlinked.qcount] at hc
    exact_mod_cast hc
  obtain ⟨t', hrun, hlinked', hsame⟩ := insertProc_spec hlinked x hp hcard
  obtain ⟨-, hnew⟩ := findAvailableQueueSlot_eq hlinked hp hcard
  have hnext := h.update hlinked'
  rw [handle_snoc] at hnext
  rw [enqueue, Function.update_self, handle_snoc, ← htail x] at hrun
  refine ⟨t', freeSlot q p, hrun, hlinked.taken hp hnew hlinked' hsame, hnext, fun hx => ?_,
    hlinked.elsewhere hlinked', hsame⟩
  have hhead := headQueue_eq hlinked' x
  rw [enqueue, Function.update_self, handle_snoc, List.head?_append_of_ne_nil _ hx] at hhead
  rw [htail x, headQueue_eq hlinked x]
  exact hhead

theorem insertProc_enqueues_crossed :
    ∃ t' i, insertProc Sample.crossed (handle [(0, 1), (2, 0)]) 2 =
        some (t', ⟨some i, some 2⟩) ∧
      WellFormed t' [] (Function.update (fun x => handle (Sample.crossing x)) (some 1024)
        ⟨some i, some 2⟩) (Function.update Sample.crossing (some 1024) [(0, 1), (2, 0), (2, i)]) := by
  obtain ⟨t', i, hrun, -, hnext, -⟩ :=
    insertProc_enqueues Sample.crossed_wellFormed (some 1024) (p := 2) (by simp) (by decide)
  exact ⟨t', i, hrun, hnext⟩

-- outProc on a queue that p does not head.
theorem outProc_behind_head (h : WellFormed t free tp q) (x : QueueId) (p : ProcId)
    (hdistinct : ((q x).map Prod.fst).Nodup) (hhead : (q x).head?.map Prod.fst ≠ some p) :
    (p ∈ (q x).map Prod.fst → ∃ front pred i back t', q x = front ++ pred :: (p, i) :: back ∧
      outProc t (tp x) p = some (t', if back = [] then .of (some pred) else tp x, some p) ∧
      WellFormed t' free (Function.update tp x (if back = [] then .of (some pred) else tp x))
        (Function.update q x (front ++ pred :: back)) ∧
      Freed t t' p i ∧ Elsewhere t t' q x ∧ Untouched free t t') ∧
    (p ∉ (q x).map Prod.fst → outProc t (tp x) p = some (t, tp x, none)) := by
  obtain ⟨hlinked, htail⟩ := wellFormed_iff.mp h
  rw [htail x]
  refine ⟨fun hp => ?_, fun hp => outProc_absent hlinked x hp⟩
  obtain ⟨t', hrun, hlinked', hsame⟩ := outProc_spec hlinked x p (once_of_distinct hdistinct)
    (removable_of_distinct hdistinct fun heq => absurd heq hhead)
  obtain ⟨⟨a, i⟩, he, rfl⟩ := List.mem_map.mp hp
  obtain ⟨front, pred, back, hq⟩ : ∃ front pred back, q x = front ++ pred :: (a, i) :: back := by
    obtain ⟨front, back, hq⟩ := List.append_of_mem he
    cases front using List.reverseRecOn with
    | nil => simp [hq] at hhead
    | append_singleton front pred => exact ⟨front, pred, back, by simpa using hq⟩
  have hsplit : front ++ pred :: (a, i) :: back = (front ++ [pred]) ++ (a, i) :: back := by simp
  have hwithdraw : withdraw q x a = Function.update q x (front ++ pred :: back) := by
    have hone := once_of_distinct (p := a) hdistinct
    rw [hq, hsplit] at hone
    rw [withdraw, hq, hsplit, hone.filter, List.append_assoc, List.singleton_append]
  have hhandle : handle (front ++ pred :: back) =
      if back = [] then .of (some pred) else handle (q x) := by
    cases back using List.reverseRecOn with
    | nil => simp
    | append_singleton back b =>
        rw [if_neg (by simp), hq, show front ++ pred :: (back ++ [b]) =
          (front ++ pred :: back) ++ [b] by simp, show front ++ pred :: (a, i) :: (back ++ [b]) =
          (front ++ pred :: (a, i) :: back) ++ [b] by simp, handle_snoc, handle_snoc]
  have hnodup := hlinked.nodup x
  rw [hwithdraw] at hrun hlinked'
  rw [Function.update_self, if_pos hp] at hrun
  have hmem : ∀ e, e ∈ front ++ pred :: back ↔ e ∈ q x ∧ e ≠ (a, i) := by
    intro e
    rw [hq, hsplit, List.nodup_middle, List.nodup_cons] at hnodup
    rw [hq]
    simp only [List.mem_append, List.mem_cons, List.not_mem_nil, or_false] at hnodup ⊢
    constructor
    · intro hm
      refine ⟨by tauto, ?_⟩
      rintro rfl
      exact hnodup.1 (by tauto)
    · tauto
  refine ⟨front, pred, i, back, t', hq, ?_, ?_, hlinked.freed he hmem hlinked' hsame,
    hlinked.elsewhere hlinked', hsame⟩
  · rw [hrun, hhandle]
  · rw [← hhandle]
    exact h.update hlinked'

theorem outProc_behind_head_crossed :
    (∃ t' tp' i, outProc Sample.crossed (handle [(0, 1), (2, 0)]) 2 = some (t', tp', some 2) ∧
      Freed Sample.crossed t' 2 i) ∧
    outProc Sample.crossed (handle [(0, 0)]) 2 = some (Sample.crossed, handle [(0, 0)], none) := by
  obtain ⟨front, pred, i, back, t', -, hrun, -, hfreed, -⟩ :=
    (outProc_behind_head Sample.crossed_wellFormed (some 1024) 2 (by decide) (by decide)).1
      (by decide)
  exact ⟨⟨t', _, i, hrun, hfreed⟩, (outProc_behind_head Sample.crossed_wellFormed none 2
    (by decide) (by decide)).2 (by decide)⟩

-- removeProc takes the head off the queue and frees its entry there.
def Dequeues (t : ProcTable) (free : List ProcId) (tp : QueueId → ProcLink)
    (q : QueueId → List Node) (x : QueueId) : Prop :=
  ∃ p i rest t', q x = (p, i) :: rest ∧
    removeProc t (tp x) = some (t', if rest = [] then .null else tp x, some p) ∧
    WellFormed t' free (Function.update tp x (if rest = [] then .null else tp x))
      (Function.update q x rest) ∧
    Freed t t' p i ∧ Elsewhere t t' q x ∧ Untouched free t t'

theorem Dequeues.cleanHead (h : WellFormed t free tp q)
    (hdistinct : ((q x).map Prod.fst).Nodup) (hd : Dequeues t free tp q x) :
    CleanHead (q x) := by
  obtain ⟨hlinked, htail⟩ := wellFormed_iff.mp h
  obtain ⟨p, i, rest, t', hq, hrun, -, hfreed, -, -⟩ := hd
  cases rest using List.reverseRecOn with
  | nil => simp [CleanHead, hq]
  | append_singleton front last =>
      obtain ⟨b, j⟩ := last
      by_contra hclean
      have hij : i ≠ j := by
        rintro rfl
        rw [CleanHead, hq, ← List.cons_append, List.getLast?_concat] at hclean
        exact hclean rfl
      have hbp : p ≠ b := by
        rw [hq] at hdistinct
        simp at hdistinct
        tauto
      have hlast : t.link b j = ⟨some i, some p⟩ := by
        have hsnoc : q x = ((p, i) :: front) ++ [(b, j)] := by simpa using hq
        simpa [ProcLink.of] using hlinked.link_last hsnoc
      have hhandle : handle (q x) = ⟨some j, some b⟩ := by
        rw [hq, ← List.cons_append, handle_snoc]
        rfl
      -- the link of the head that is cleared is the one at the index of the tail
      have hkeep : t'.link p i = t.link p i := by
        rw [htail x, hhandle] at hrun
        simp [removeProc, hlast, hbp] at hrun
        rw [← hrun]
        exact ProcTable.link_unhook (b, j) _ (e := (p, i)) (by simpa using hij)
          (by simp [hbp])
      have hstill : i ∈ used t' p := by
        rw [mem_used, hkeep]
        exact hlinked.next_ne (x := x) (e := (p, i)) (by simp [hq])
      rw [hfreed.used p, if_pos rfl] at hstill
      simp at hstill

-- removeProc is right on a queue if and only if its head and its tail use the
-- same index.
theorem removeProc_dequeues_iff (h : WellFormed t free tp q) (x : QueueId) (hx : q x ≠ [])
    (hdistinct : ((q x).map Prod.fst).Nodup) :
    Dequeues t free tp q x ↔ CleanHead (q x) := by
  constructor
  · exact Dequeues.cleanHead h hdistinct
  · intro hclean
    obtain ⟨hlinked, htail⟩ := wellFormed_iff.mp h
    obtain ⟨t', hrun, hlinked', hsame⟩ := removeProc_spec hlinked x hclean
    obtain ⟨⟨p, i⟩, rest, hq⟩ := List.exists_cons_of_ne_nil hx
    have hhandle : handle rest = if rest = [] then .null else handle (q x) := by
      cases rest using List.reverseRecOn with
      | nil => simp
      | append_singleton front b =>
          rw [if_neg (by simp), hq, ← List.cons_append, handle_snoc, handle_snoc]
    have hmem : ∀ e, e ∈ rest ↔ e ∈ q x ∧ e ≠ (p, i) := by
      intro e
      have hnodup := hlinked.nodup x
      rw [hq, List.nodup_cons] at hnodup
      rw [hq, List.mem_cons]
      constructor
      · intro he
        refine ⟨Or.inr he, ?_⟩
        rintro rfl
        exact hnodup.1 he
      · tauto
    have hdeq : dequeue q x = Function.update q x rest := by
      rw [dequeue, hq]
      rfl
    rw [hdeq] at hrun hlinked'
    rw [Function.update_self] at hrun
    refine ⟨p, i, rest, t', hq, ?_, ?_, hlinked.freed (by simp [hq]) hmem hlinked' hsame,
      hlinked.elsewhere hlinked', hsame⟩
    · rw [htail x, hrun, ← hhandle, hq]
      rfl
    · rw [htail x, ← hhandle]
      exact h.update hlinked'

-- The head leaves through its entry 1, and the two behind it keep theirs.
theorem removeProc_dequeues_aligned :
    Sample.aligning (some 1024) = [(0, 1), (2, 0), (3, 1)] ∧
    Sample.aligning none = [(0, 0), (3, 0)] ∧
    Dequeues Sample.aligned [] (fun x => handle (Sample.aligning x)) Sample.aligning (some 1024) :=
  ⟨rfl, rfl, (removeProc_dequeues_iff Sample.aligned_wellFormed (some 1024) (by decide)
    (by decide)).mpr (by decide)⟩

-- The entry that links the head in readyQueue is cleared, and the one on this
-- queue stays in use.
theorem removeProc_crossed :
    WellFormed Sample.crossed [] (fun x => handle (Sample.crossing x)) Sample.crossing ∧
    (Sample.crossing (some 1024) = [(0, 1), (2, 0)] ∧ Sample.crossing none = [(0, 0)]) ∧
    (removeProc Sample.crossed (handle (Sample.crossing (some 1024)))).map
      (fun r => (r.1.link 0 0, r.1.link 0 1)) = some (.null, ⟨some 0, some 2⟩) ∧
    ¬ Dequeues Sample.crossed [] (fun x => handle (Sample.crossing x)) Sample.crossing
      (some 1024) := by
  refine ⟨Sample.crossed_wellFormed, by decide, by decide, fun h => ?_⟩
  exact absurd (h.cleanHead Sample.crossed_wellFormed (by decide)) (by decide)

end Hoca
