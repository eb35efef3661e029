import Mathlib

namespace Links

variable {α : Type*} {next next' : α → Option α}

-- Every cell of the list points at the one after it, and the last one at `stop`.
def Leads (next : α → Option α) : List α → Option α → Prop
  | [], _ => True
  | a :: rest, stop => next a = rest.head?.or stop ∧ Leads next rest stop

@[simp] theorem leads_nil (stop : Option α) : Leads next [] stop := trivial

@[simp] theorem leads_cons (a : α) (rest : List α) (stop : Option α) :
    Leads next (a :: rest) stop ↔ next a = rest.head?.or stop ∧ Leads next rest stop := Iff.rfl

instance decidableLeads [DecidableEq α] : ∀ cells stop, Decidable (Leads next cells stop)
  | [], _ => isTrue trivial
  | a :: rest, stop =>
      have := decidableLeads rest stop
      inferInstanceAs (Decidable (next a = rest.head?.or stop ∧ Leads next rest stop))

theorem leads_append (front back : List α) (stop : Option α) :
    Leads next (front ++ back) stop ↔
      Leads next front (back.head?.or stop) ∧ Leads next back stop := by
  induction front with
  | nil => simp
  | cons a front ih =>
      simp only [List.cons_append, leads_cons, ih, List.head?_append, Option.or_assoc, and_assoc]

theorem Leads.congr {cells : List α} {stop : Option α} (h : Leads next cells stop)
    (heq : ∀ a ∈ cells, next' a = next a) : Leads next' cells stop := by
  induction cells with
  | nil => trivial
  | cons a rest ih =>
      refine ⟨(heq a (by simp)).trans h.1, ih h.2 ?_⟩
      intro b hb
      exact heq b (List.mem_cons_of_mem _ hb)

theorem Leads.next_last {front : List α} {a : α} {stop : Option α}
    (h : Leads next (front ++ [a]) stop) : next a = stop := by
  simpa using ((leads_append front [a] stop).mp h).2.1

theorem Leads.next_mid {front back : List α} {a b : α} {stop : Option α}
    (h : Leads next (front ++ a :: b :: back) stop) : next a = some b := by
  simpa using ((leads_append front (a :: b :: back) stop).mp h).2.1

-- Redirecting the last cell moves the end of the path.
theorem Leads.redirect {front : List α} {a : α} {stop stop' : Option α}
    (h : Leads next (front ++ [a]) stop) (ha : next' a = stop')
    (heq : ∀ b ∈ front, next' b = next b) : Leads next' (front ++ [a]) stop' := by
  rw [leads_append] at h ⊢
  exact ⟨h.1.congr heq, by simpa using ha⟩

-- Cutting out the cell after `a`.
theorem Leads.cut {front back : List α} {a x : α} {stop : Option α}
    (h : Leads next (front ++ a :: x :: back) stop) (ha : next' a = next x)
    (heq : ∀ b ∈ front ++ back, next' b = next b) :
    Leads next' (front ++ a :: back) stop := by
  rw [leads_append] at h ⊢
  obtain ⟨hf, -, hx, hb⟩ := h
  refine ⟨?_, ha.trans hx, hb.congr fun b hm => heq b (by simp [hm])⟩
  exact hf.congr fun b hm => heq b (by simp [hm])

-- Putting a cell in after `a`.
theorem Leads.splice {front back : List α} {a x : α} {stop : Option α}
    (h : Leads next (front ++ a :: back) stop) (ha : next' a = some x)
    (hx : next' x = next a) (heq : ∀ b ∈ front ++ back, next' b = next b) :
    Leads next' (front ++ a :: x :: back) stop := by
  rw [leads_append] at h ⊢
  obtain ⟨hf, hn, hb⟩ := h
  refine ⟨hf.congr fun b hm => heq b (by simp [hm]), by simpa using ha, hx.trans hn, ?_⟩
  exact hb.congr fun b hm => heq b (by simp [hm])

-- A list that ends in a null pointer, and one that closes on its first cell.
def Chain (next : α → Option α) (first : Option α) (cells : List α) : Prop :=
  first = cells.head? ∧ Leads next cells none

def Ring (next : α → Option α) (cells : List α) : Prop :=
  Leads next cells cells.head?

theorem Ring.next_last {front : List α} {a : α} (h : Ring next (front ++ [a])) :
    next a = (front ++ [a]).head? := Leads.next_last h

theorem Ring.congr {cells : List α} (h : Ring next cells)
    (heq : ∀ a ∈ cells, next' a = next a) : Ring next' cells :=
  Leads.congr h heq

theorem Leads.exists_next {cells : List α} {a : α} {stop : Option α}
    (h : Leads next cells stop) (ha : a ∈ cells) :
    (∃ b ∈ cells, next a = some b) ∨ next a = stop := by
  induction cells with
  | nil => simp at ha
  | cons c rest ih =>
      rcases List.mem_cons.mp ha with rfl | hr
      · cases rest with
        | nil => exact Or.inr (by simpa using h.1)
        | cons d rest => exact Or.inl ⟨d, by simp, by simpa using h.1⟩
      · rcases ih h.2 hr with ⟨b, hb, hn⟩ | hn
        · exact Or.inl ⟨b, List.mem_cons_of_mem _ hb, hn⟩
        · exact Or.inr hn

theorem Ring.exists_next {cells : List α} {a : α} (h : Ring next cells) (ha : a ∈ cells) :
    ∃ b ∈ cells, next a = some b := by
  rcases Leads.exists_next h ha with hb | hn
  · exact hb
  · cases cells with
    | nil => simp at ha
    | cons c rest => exact ⟨c, by simp, by simpa using hn⟩

theorem ring_singleton {a : α} (h : next a = some a) : Ring next [a] := by
  simp [Ring, h]

-- A new last cell takes over the link of the old one.
theorem Ring.snoc {front : List α} {a x : α} (h : Ring next (front ++ [a]))
    (ha : next' a = some x) (hx : next' x = next a)
    (heq : ∀ b ∈ front, next' b = next b) : Ring next' (front ++ [a] ++ [x]) := by
  have hs : Leads next' (front ++ a :: x :: []) (front ++ [a]).head? :=
    Leads.splice h ha hx (by simpa using heq)
  have hh : (front ++ [a] ++ [x]).head? = (front ++ [a]).head? := by
    cases front <;> simp
  rw [Ring, hh]
  simpa using hs

-- Dropping the first cell: the last one takes over its link.
theorem Ring.behead {front : List α} {first a : α} (h : Ring next (first :: (front ++ [a])))
    (ha : next' a = next first) (heq : ∀ b ∈ front, next' b = next b) :
    Ring next' (front ++ [a]) := by
  obtain ⟨hf, hr⟩ := h
  refine Leads.redirect hr (ha.trans ?_) heq
  rw [hf]
  cases front <;> simp

-- Dropping a later cell: the one before it takes over its link.
theorem Ring.cut {front back : List α} {a x : α} (h : Ring next (front ++ a :: x :: back))
    (ha : next' a = next x) (heq : ∀ b ∈ front ++ back, next' b = next b) :
    Ring next' (front ++ a :: back) := by
  have hh : (front ++ a :: x :: back).head? = (front ++ a :: back).head? := by
    cases front <;> simp
  rw [Ring, ← hh]
  exact Leads.cut h ha heq

theorem Chain.congr {first : Option α} {cells : List α} (h : Chain next first cells)
    (heq : ∀ a ∈ cells, next' a = next a) : Chain next' first cells :=
  ⟨h.1, h.2.congr heq⟩

theorem Chain.tail {a : α} {first : Option α} {rest : List α}
    (h : Chain next first (a :: rest)) : Chain next (next a) rest :=
  ⟨by simpa using h.2.1, h.2.2⟩

@[simp] theorem chain_nil (first : Option α) : Chain next first [] ↔ first = none := by
  simp [Chain]

theorem chain_cons {first : Option α} {a : α} {rest : List α} :
    Chain next first (a :: rest) ↔ first = some a ∧ Chain next (next a) rest := by
  simp [Chain]

theorem Chain.next_mem {first : Option α} {cells : List α} {a b : α} (h : Chain next first cells)
    (ha : a ∈ cells) (hn : next a = some b) : b ∈ cells := by
  rcases h.2.exists_next ha with ⟨c, hc, hnc⟩ | hnone
  · rw [hn] at hnc
    cases hnc
    exact hc
  · rw [hn] at hnone
    cases hnone

theorem Chain.first_mem {first : Option α} {cells : List α} {a : α} (h : Chain next first cells)
    (ha : first = some a) : a ∈ cells :=
  List.mem_of_head? (h.1.symm.trans ha)

-- What the links of a chain are once a cell has been cut out of it.
theorem Chain.erase_links [DecidableEq α] {first first' : Option α} {cells : List α} {x : α}
    (h : Chain next first cells) (h' : Chain next' first' (cells.erase x)) (hnodup : cells.Nodup) :
    first' = (if first = some x then next x else first) ∧
      ∀ a ∈ cells.erase x, next' a = if next a = some x then next x else next a := by
  induction cells generalizing first first' with
  | nil =>
      rw [chain_nil] at h
      rw [List.erase_nil, chain_nil] at h'
      simp [h, h']
  | cons b rest ih =>
      obtain ⟨rfl, hrest⟩ := chain_cons.mp h
      obtain ⟨hb, hnodup⟩ := List.nodup_cons.mp hnodup
      by_cases hbx : b = x
      · subst hbx
        rw [List.erase_cons_head] at h' ⊢
        have hkeep : rest.erase b = rest := List.erase_of_not_mem hb
        obtain ⟨hfirst, hnext⟩ := ih hrest (hkeep ▸ h') hnodup
        rw [hkeep] at hnext
        refine ⟨?_, hnext⟩
        rw [hfirst, if_pos rfl]
        split
        · next hn => exact hn ▸ rfl
        · rfl
      · rw [List.erase_cons_tail (by simpa using hbx)] at h' ⊢
        obtain ⟨rfl, hrest'⟩ := chain_cons.mp h'
        obtain ⟨hfirst, hnext⟩ := ih hrest hrest' hnodup
        refine ⟨by simp [hbx], fun a ha => ?_⟩
        rcases List.mem_cons.mp ha with rfl | ha
        · exact hfirst
        · exact hnext a ha

-- A new last cell of a chain.
theorem Chain.snoc {front : List α} {a x : α} {first : Option α}
    (h : Chain next first (front ++ [a])) (ha : next' a = some x) (hx : next' x = none)
    (heq : ∀ b ∈ front, next' b = next b) : Chain next' first (front ++ [a] ++ [x]) := by
  refine ⟨?_, ?_⟩
  · rw [h.1]
    cases front <;> simp
  · have hn := h.2.next_last
    have hs : Leads next' (front ++ a :: x :: []) none :=
      Leads.splice h.2 ha (hx.trans hn.symm) (by simpa using heq)
    simpa using hs

theorem leads_of_getElem {cells : List α}
    (h : ∀ i (hi : i < cells.length), next cells[i] = cells[i + 1]?) : Leads next cells none := by
  induction cells with
  | nil => trivial
  | cons a rest ih =>
      rw [leads_cons]
      refine ⟨?_, ih fun i hi => h (i + 1) (by simpa using hi)⟩
      have h0 := h 0 (by simp)
      cases rest <;> simpa using h0

-- A table whose cells are linked in order.
theorem chain_finRange {n : ℕ} {next : Fin (n + 1) → Option (Fin (n + 1))}
    (h : ∀ a, next a = if hn : a.val + 1 < n + 1 then some ⟨a.val + 1, hn⟩ else none) :
    Chain next (some 0) (List.finRange (n + 1)) := by
  refine ⟨by simp [List.finRange_succ], leads_of_getElem fun i hi => ?_⟩
  rw [List.getElem_finRange, h]
  rw [List.length_finRange] at hi
  by_cases hn : i + 1 < n + 1
  · simp [hn]
  · simp [hn]

-- The cells read off by following the pointers.
def walk (next : α → Option α) : ℕ → Option α → List α
  | 0, _ => []
  | _ + 1, none => []
  | fuel + 1, some a => a :: walk next fuel (next a)

theorem Chain.walk_eq {fuel : ℕ} {first : Option α} {cells : List α}
    (h : Chain next first cells) (hfuel : cells.length ≤ fuel) :
    walk next fuel first = cells := by
  induction cells generalizing fuel first with
  | nil =>
      obtain rfl := (chain_nil first).mp h
      cases fuel <;> rfl
  | cons a rest ih =>
      obtain ⟨rfl, hr⟩ := chain_cons.mp h
      cases fuel with
      | zero => simp at hfuel
      | succ fuel =>
          rw [walk, ih hr (by simpa using hfuel)]

-- The last cell of a chain.
def lastCell (next : α → Option α) : ℕ → α → Option α
  | 0, _ => none
  | fuel + 1, a =>
      match next a with
      | none => some a
      | some b => lastCell next fuel b

theorem Chain.lastCell_eq {front : List α} {a first : α} (fuel : ℕ)
    (h : Chain next (some first) (front ++ [a])) (hfuel : front.length < fuel) :
    lastCell next fuel first = some a := by
  induction front generalizing first fuel with
  | nil =>
      obtain ⟨hf, hn⟩ := chain_cons.mp h
      cases hf
      cases fuel with
      | zero => simp at hfuel
      | succ fuel => simp [lastCell, (chain_nil _).mp hn]
  | cons b front ih =>
      obtain ⟨hf, hn⟩ := chain_cons.mp h
      cases hf
      cases fuel with
      | zero => simp at hfuel
      | succ fuel =>
          obtain ⟨c, hc⟩ : ∃ c, next b = some c := by
            rw [hn.1]
            cases front <;> simp
          rw [hc] at hn
          rw [lastCell, hc]
          exact ih fuel hn (by simpa using hfuel)

-- One round of a ring from its first cell to its last.
def lap [DecidableEq α] (next : α → Option α) (last : α) : ℕ → Option α → List α
  | 0, _ => []
  | _ + 1, none => []
  | fuel + 1, some a => a :: if a = last then [] else lap next last fuel (next a)

theorem lap_eq [DecidableEq α] {fuel : ℕ} {front : List α} {last : α} {stop : Option α}
    (h : Leads next (front ++ [last]) stop) (hnodup : (front ++ [last]).Nodup)
    (hfuel : front.length < fuel) :
    lap next last fuel (front ++ [last]).head? = front ++ [last] := by
  induction front generalizing fuel with
  | nil =>
      cases fuel with
      | zero => simp at hfuel
      | succ fuel => simp [lap]
  | cons a front ih =>
      obtain ⟨ha, hr⟩ := h
      have hne : a ≠ last := by
        rintro rfl
        simp at hnodup
      have hn : next a = (front ++ [last]).head? := by
        rw [ha]
        cases front <;> simp
      cases fuel with
      | zero => simp at hfuel
      | succ fuel =>
          have hrest := ih hr (List.nodup_cons.mp hnodup).2 (by simpa using hfuel)
          simp only [List.cons_append, List.head?_cons, lap, hne, ite_false, hn, hrest]

section Doubly

variable {prev prev' : α → Option α} {first : Option α}

-- A chain that can be walked in both directions.
def Doubly (next prev : α → Option α) (first : Option α) (cells : List α) : Prop :=
  Chain next first cells ∧ Leads prev cells.reverse none

@[simp] theorem doubly_nil : Doubly next prev first [] ↔ first = none := by
  simp [Doubly]

theorem Doubly.congr {cells : List α} (h : Doubly next prev first cells)
    (hn : ∀ a ∈ cells, next' a = next a) (hp : ∀ a ∈ cells, prev' a = prev a) :
    Doubly next' prev' first cells :=
  ⟨h.1.congr hn, h.2.congr fun a ha => hp a (List.mem_reverse.mp ha)⟩

-- A new first cell.
theorem Doubly.push {a : α} {rest : List α} {x : α} (h : Doubly next prev first (a :: rest))
    (hx : next' x = some a) (hpx : prev' x = none) (hpa : prev' a = some x)
    (hn : ∀ b ∈ a :: rest, next' b = next b) (hp : ∀ b ∈ rest, prev' b = prev b) :
    Doubly next' prev' (some x) (x :: a :: rest) := by
  refine ⟨chain_cons.mpr ⟨rfl, ?_⟩, ?_⟩
  · rw [hx, ← show first = some a from (chain_cons.mp h.1).1]
    exact h.1.congr hn
  · have hr := h.2
    rw [List.reverse_cons, leads_append] at hr
    rw [show (x :: a :: rest).reverse = rest.reverse ++ [a] ++ [x] by simp, leads_append,
      leads_append]
    refine ⟨⟨hr.1.congr fun b hb => hp b (List.mem_reverse.mp hb), ?_⟩, ?_⟩
    · simpa using hpa
    · simpa using hpx

-- Dropping the first cell.
theorem Doubly.behead {a : α} {rest : List α} (h : Doubly next prev first (a :: rest))
    (hn : ∀ b ∈ rest, next' b = next b) (hhead : ∀ b ∈ rest.head?, prev' b = none)
    (hp : ∀ b ∈ rest.tail, prev' b = prev b) : Doubly next' prev' (next a) rest := by
  refine ⟨(Chain.tail h.1).congr hn, ?_⟩
  cases rest with
  | nil => simp
  | cons b rest =>
      have hr := h.2
      rw [show (a :: b :: rest).reverse = rest.reverse ++ [b] ++ [a] by simp, leads_append,
        leads_append] at hr
      rw [List.reverse_cons, leads_append]
      refine ⟨hr.1.1.congr fun c hc => hp c (by simpa using hc), ?_⟩
      simpa using hhead b (by simp)

-- Dropping a later cell.
theorem Doubly.cut {front back : List α} {a x : α}
    (h : Doubly next prev first (front ++ a :: x :: back)) (ha : next' a = next x)
    (hn : ∀ b ∈ front ++ back, next' b = next b) (hhead : ∀ b ∈ back.head?, prev' b = prev x)
    (hp : ∀ b ∈ front ++ a :: back.tail, prev' b = prev b) :
    Doubly next' prev' first (front ++ a :: back) := by
  refine ⟨⟨h.1.1.trans (by cases front <;> simp), Leads.cut h.1.2 ha hn⟩, ?_⟩
  have hr := h.2
  cases back with
  | nil =>
      rw [show (front ++ [a, x]).reverse = x :: a :: front.reverse by simp] at hr
      rw [show (front ++ [a]).reverse = a :: front.reverse by simp]
      exact hr.2.congr fun b hb => hp b (by simpa [or_comm] using hb)
  | cons c back =>
      rw [show (front ++ a :: x :: c :: back).reverse =
        back.reverse ++ c :: x :: (a :: front.reverse) by simp] at hr
      rw [show (front ++ a :: c :: back).reverse =
        back.reverse ++ c :: (a :: front.reverse) by simp]
      refine hr.cut (hhead c (by simp)) fun b hb => hp b ?_
      simp only [List.mem_append, List.mem_reverse, List.mem_cons, List.tail_cons] at hb ⊢
      tauto

theorem Doubly.next_eq {front back : List α} {x : α}
    (h : Doubly next prev first (front ++ x :: back)) : next x = back.head? := by
  have hl := h.1.2
  rw [leads_append] at hl
  simpa using hl.2.1

theorem Doubly.prev_eq {front back : List α} {x : α}
    (h : Doubly next prev first (front ++ x :: back)) : prev x = front.getLast? := by
  have hr := h.2
  rw [List.reverse_append, List.reverse_cons, List.append_assoc, leads_append] at hr
  simpa using hr.2.1

theorem Doubly.prev_first {cells : List α} (h : Doubly next prev first cells) {a : α}
    (ha : first = some a) : prev a = none := by
  cases cells with
  | nil =>
      rw [doubly_nil.mp h] at ha
      cases ha
  | cons b rest =>
      obtain rfl : b = a := Option.some.inj ((chain_cons.mp h.1).1.symm.trans ha)
      have hcons : Doubly next prev first ([] ++ b :: rest) := h
      exact hcons.prev_eq

-- Each cell is behind the one it points back at.
theorem Doubly.next_iff_prev {cells : List α} (h : Doubly next prev first cells)
    {a b : α} (ha : a ∈ cells) (hb : b ∈ cells) :
    next a = some b ↔ prev b = some a := by
  constructor
  · intro hn
    obtain ⟨front, back, rfl⟩ := List.append_of_mem ha
    rw [h.next_eq] at hn
    obtain ⟨back, rfl⟩ := List.head?_eq_some_iff.mp hn
    rw [show front ++ a :: b :: back = (front ++ [a]) ++ b :: back by simp] at h
    rw [h.prev_eq, List.getLast?_concat]
  · intro hp
    obtain ⟨front, back, rfl⟩ := List.append_of_mem hb
    rw [h.prev_eq] at hp
    obtain ⟨front, rfl⟩ := List.getLast?_eq_some_iff.mp hp
    rw [List.append_assoc, List.singleton_append] at h
    rw [h.next_eq, List.head?_cons]

-- Dropping any cell: its neighbours are linked to each other.
theorem Doubly.drop {front back : List α} {x : α} [DecidableEq α]
    (h : Doubly next prev first (front ++ x :: back)) (hnodup : (front ++ x :: back).Nodup)
    (hn : ∀ b ∈ front ++ back, next' b = if prev x = some b then next x else next b)
    (hp : ∀ b ∈ front ++ back, prev' b = if next x = some b then prev x else prev b) :
    Doubly next' prev' (if front = [] then next x else first) (front ++ back) := by
  have hnext := h.next_eq
  have hprev := h.prev_eq
  have htail : ∀ b ∈ back.tail, next x ≠ some b := by
    intro b hb heq
    rw [hnext] at heq
    obtain ⟨rest, rfl⟩ := List.head?_eq_some_iff.mp heq
    have hback := (List.nodup_cons.mp (List.nodup_append.mp hnodup).2.1).2
    exact (List.nodup_cons.mp hback).1 hb
  cases front using List.reverseRecOn with
  | nil =>
      rw [if_pos rfl]
      refine Doubly.behead h ?_ ?_ ?_
      · intro b hb
        rw [hn b hb, if_neg (by rw [hprev]; nofun)]
      · intro b hb
        rw [hp b (List.mem_of_mem_head? hb), if_pos (hnext.trans hb), hprev]
        rfl
      · intro b hb
        rw [hp b (List.mem_of_mem_tail hb), if_neg (htail b hb)]
  | append_singleton front a _ =>
      have hlast : prev x = some a := by
        rw [hprev, List.getLast?_append_of_ne_nil _ (by simp)]
        rfl
      rw [if_neg (by simp), List.append_assoc, List.singleton_append]
      rw [List.append_assoc, List.singleton_append] at h hnodup hn hp
      have hapart := (List.nodup_append.mp hnodup).2.2
      have hrest := (List.nodup_cons.mp (List.nodup_append.mp hnodup).2.1).1
      refine Doubly.cut h ?_ ?_ ?_ ?_
      · rw [hn a (by simp), if_pos hlast]
      · intro b hb
        have hne : b ≠ a := by
          rintro rfl
          rcases List.mem_append.mp hb with hb | hb
          · exact hapart b hb b (by simp) rfl
          · exact hrest (List.mem_cons_of_mem x hb)
        have hmem : b ∈ front ++ a :: back := by
          simp only [List.mem_append, List.mem_cons] at hb ⊢
          tauto
        rw [hn b hmem, if_neg fun heq => hne (Option.some.inj (heq.symm.trans hlast))]
      · intro b hb
        have hmem := List.mem_of_mem_head? hb
        rw [hp b (by simp [hmem]), if_pos (hnext.trans hb)]
      · intro b hb
        have hout : next x ≠ some b := by
          intro heq
          have hback : b ∈ back := List.mem_of_mem_head? (hnext.symm.trans heq)
          simp only [List.mem_append, List.mem_cons] at hb
          rcases hb with hb | rfl | hb
          · exact hapart b hb b (by simp [hback]) rfl
          · exact hrest (by simp [hback])
          · exact htail b hb heq
        have hmem : b ∈ front ++ a :: back := by
          simp only [List.mem_append, List.mem_cons] at hb ⊢
          exact hb.imp_right fun hb => hb.imp_right List.mem_of_mem_tail
        rw [hp b hmem, if_neg hout]

-- A new cell after `a`.
theorem Doubly.splice {front back : List α} {a x : α}
    (h : Doubly next prev first (front ++ a :: back)) (ha : next' a = some x)
    (hx : next' x = next a) (hn : ∀ b ∈ front ++ back, next' b = next b)
    (hpx : prev' x = some a) (hhead : ∀ b ∈ back.head?, prev' b = some x)
    (hp : ∀ b ∈ front ++ a :: back.tail, prev' b = prev b) :
    Doubly next' prev' first (front ++ a :: x :: back) := by
  refine ⟨⟨h.1.1.trans (by cases front <;> simp), Leads.splice h.1.2 ha hx hn⟩, ?_⟩
  have hr := h.2
  cases back with
  | nil =>
      rw [show (front ++ [a]).reverse = a :: front.reverse by simp] at hr
      rw [show (front ++ [a, x]).reverse = x :: a :: front.reverse by simp]
      refine ⟨by simpa using hpx, hr.congr fun b hb => hp b ?_⟩
      simpa [or_comm] using hb
  | cons c back =>
      rw [show (front ++ a :: c :: back).reverse =
        back.reverse ++ c :: (a :: front.reverse) by simp] at hr
      rw [show (front ++ a :: x :: c :: back).reverse =
        back.reverse ++ c :: x :: (a :: front.reverse) by simp]
      refine hr.splice (hhead c (by simp)) ?_ fun b hb => hp b ?_
      · rw [hpx, hr.next_mid]
      · simp only [List.mem_append, List.mem_reverse, List.mem_cons, List.tail_cons] at hb ⊢
        tauto

end Doubly

end Links
