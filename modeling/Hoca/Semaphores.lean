import Mathlib

-- Counting semaphores with first-come queues.
namespace Semaphores

variable {σ π : Type*}

structure Sems (σ π : Type*) where
  word : σ → Int
  queue : σ → List π

inductive Op (σ : Type*) where
  | P (s : σ)
  | V (s : σ)
deriving DecidableEq

def Op.sem : Op σ → σ
  | .P s => s
  | .V s => s

-- What an operation adds to its word.
def Op.adds : Op σ → Int
  | .P _ => -1
  | .V _ => 1

namespace Sems

def Blocked (m : Sems σ π) (p : π) : Prop := ∃ s, p ∈ m.queue s

-- The word counts the waiters.
def Balanced (m : Sems σ π) (s : σ) : Prop := ((m.queue s).length : Int) = max 0 (-m.word s)

-- A semaphore that has n permits, for those who have asked for one: of these at most
-- n do not wait.
structure Permits (m : Sems σ π) (s : σ) (n : Int) (inside : Finset π) : Prop where
  word : m.word s = n - inside.card
  within : ∀ p ∈ m.queue s, p ∈ inside
  nodup : (m.queue s).Nodup
  balanced : m.Balanced s

-- A semaphore that guards a section.
abbrev Mutex (m : Sems σ π) (s : σ) (inside : Finset π) : Prop := Permits m s 1 inside

section Values

variable {m m' : Sems σ π} {s : σ} {p q : π} {n : Int} {inside : Finset π}

theorem Balanced.queue_nil (h : m.Balanced s) (hw : 0 ≤ m.word s) : m.queue s = [] := by
  rw [← List.length_eq_zero_iff]
  unfold Balanced at h
  omega

theorem Balanced.word_neg (h : m.Balanced s) (hp : p ∈ m.queue s) : m.word s < 0 := by
  have hl := List.length_pos_of_mem hp
  unfold Balanced at h
  omega

theorem Balanced.congr (h : m.Balanced s) (hword : m'.word s = m.word s)
    (hqueue : m'.queue s = m.queue s) : m'.Balanced s := by
  unfold Balanced at h ⊢
  rw [hqueue, hword]
  exact h

theorem Mutex.length_queue (h : Mutex m s inside) (hp : p ∈ inside) :
    (m.queue s).length + 1 = inside.card := by
  have hb := h.balanced
  have hpos := Finset.card_pos.mpr ⟨p, hp⟩
  unfold Balanced at hb
  rw [h.word] at hb
  omega

-- Mutual exclusion.
theorem Mutex.unique [DecidableEq π] (h : Mutex m s inside) (hp : p ∈ inside)
    (hpq : p ∉ m.queue s) (hq : q ∈ inside) (hqq : q ∉ m.queue s) : p = q := by
  by_contra hne
  have hlen := h.length_queue hp
  have htwo : 1 < inside.card := Finset.one_lt_card.mpr ⟨p, hp, q, hq, hne⟩
  have hsub : (m.queue s).toFinset ⊆ (inside.erase p).erase q := by
    intro x hx
    rw [List.mem_toFinset] at hx
    rw [Finset.mem_erase, Finset.mem_erase]
    refine ⟨?_, ?_, h.within x hx⟩
    · rintro rfl
      exact hqq hx
    · rintro rfl
      exact hpq hx
  have hcard := Finset.card_le_card hsub
  rw [List.toFinset_card_of_nodup h.nodup, Finset.card_erase_of_mem
    (Finset.mem_erase.mpr ⟨Ne.symm hne, hq⟩), Finset.card_erase_of_mem hp] at hcard
  omega

theorem Permits.word_le (h : Permits m s n inside) : m.word s ≤ n := by
  rw [h.word]
  omega

-- Whoever does not wait has a permit.
theorem Permits.one_le [DecidableEq π] (h : Permits m s n inside) (hp : p ∈ inside)
    (hpq : p ∉ m.queue s) : 1 ≤ n := by
  have hb := h.balanced
  have hpos := Finset.card_pos.mpr ⟨p, hp⟩
  have hsub : (m.queue s).toFinset ⊆ inside.erase p := by
    intro x hx
    rw [List.mem_toFinset] at hx
    rw [Finset.mem_erase]
    refine ⟨?_, h.within x hx⟩
    rintro rfl
    exact hpq hx
  have hcard := Finset.card_le_card hsub
  rw [List.toFinset_card_of_nodup h.nodup, Finset.card_erase_of_mem hp] at hcard
  unfold Balanced at hb
  rw [h.word] at hb
  omega

theorem Permits.frame (h : Permits m s n inside) (hword : m'.word s = m.word s)
    (hqueue : m'.queue s = m.queue s) : Permits m' s n inside where
  word := hword.trans h.word
  within p hp := h.within p (hqueue ▸ hp)
  nodup := hqueue ▸ h.nodup
  balanced := h.balanced.congr hword hqueue

-- When somebody waits, the permits are with those who do not.
theorem Permits.exists_free [DecidableEq π] (h : Permits m s n inside) (hn : 1 ≤ n) (hp : p ∈ m.queue s) :
    ∃ q ∈ inside, q ∉ m.queue s := by
  by_contra hall
  push Not at hall
  have hsub : inside ⊆ (m.queue s).toFinset := fun q hq => List.mem_toFinset.mpr (hall q hq)
  have hcard := Finset.card_le_card hsub
  have hneg := h.balanced.word_neg hp
  have hlen := h.balanced
  unfold Balanced at hlen
  rw [List.toFinset_card_of_nodup h.nodup] at hcard
  rw [h.word] at hneg hlen
  omega

-- A permit that is not given back.
theorem Permits.spend [DecidableEq π] (h : Permits m s n inside) (hp : p ∈ inside) (hpq : p ∉ m.queue s) :
    Permits m s (n - 1) (inside.erase p) where
  word := by
    have hpos := Finset.card_pos.mpr ⟨p, hp⟩
    rw [h.word, Finset.card_erase_of_mem hp]
    omega
  within q hq := by
    have hne : q ≠ p := fun heq => hpq (heq ▸ hq)
    exact Finset.mem_erase.mpr ⟨hne, h.within q hq⟩
  nodup := h.nodup
  balanced := h.balanced

end Values

variable [DecidableEq σ] (m : Sems σ π) (p : π)

def op : Op σ → Sems σ π
  | .P s => ⟨Function.update m.word s (m.word s - 1),
      if m.word s ≤ 0 then Function.update m.queue s (m.queue s ++ [p]) else m.queue⟩
  | .V s => ⟨Function.update m.word s (m.word s + 1),
      if m.word s < 0 then Function.update m.queue s (m.queue s).tail else m.queue⟩

-- All operations of a vector, one after the other, whether or not they block the
-- process.
def vector : Sems σ π → π → List (Op σ) → Sems σ π
  | m, _, [] => m
  | m, p, o :: rest => vector (m.op p o) p rest

variable {m p} {s s' : σ} {o : Op σ} {ops : List (Op σ)} {q : π}

theorem word_op (m : Sems σ π) (p : π) (o : Op σ) (s : σ) :
    (m.op p o).word s = m.word s + if o.sem = s then o.adds else 0 := by
  cases o with
  | P s' =>
      by_cases hs : s = s'
      · subst hs
        simp [op, Op.sem, Op.adds, Int.sub_eq_add_neg]
      · simp [op, Op.sem, hs, Ne.symm hs]
  | V s' =>
      by_cases hs : s = s'
      · subst hs
        simp [op, Op.sem, Op.adds]
      · simp [op, Op.sem, hs, Ne.symm hs]

-- A word after a vector: the vector's operations on it are added.
theorem word_vector (ops : List (Op σ)) (m : Sems σ π) (p : π) (s : σ) :
    (m.vector p ops).word s = m.word s + ((ops.filter fun o => o.sem = s).map Op.adds).sum := by
  induction ops generalizing m with
  | nil => simp [vector]
  | cons o ops ih =>
      rw [vector, ih, word_op]
      by_cases hs : o.sem = s
      · simp [hs, Int.add_assoc]
      · simp [hs]

theorem word_vector_of_mem (hnodup : (ops.map Op.sem).Nodup) (ho : o ∈ ops) :
    (m.vector p ops).word o.sem = m.word o.sem + o.adds := by
  induction ops generalizing m with
  | nil => cases ho
  | cons o' ops ih =>
      obtain ⟨hhead, htail⟩ := List.nodup_cons.mp hnodup
      rw [vector]
      rcases List.mem_cons.mp ho with rfl | ho
      · have hnone : ops.filter (fun o' => o'.sem = o.sem) = [] := by
          refine List.filter_eq_nil_iff.mpr fun o' ho' => ?_
          simp only [decide_eq_true_eq]
          exact fun heq => hhead (heq ▸ List.mem_map_of_mem ho')
        rw [word_vector, hnone, word_op, if_pos rfl]
        exact Int.add_zero _
      · have hne : o'.sem ≠ o.sem := fun heq => hhead (heq ▸ List.mem_map_of_mem ho)
        rw [ih htail ho, word_op, if_neg hne, Int.add_zero]

theorem queue_op_of_ne (hs : o.sem ≠ s) : (m.op p o).queue s = m.queue s := by
  cases o with
  | P s' =>
      simp only [op]
      split
      · exact Function.update_of_ne (Ne.symm hs) ..
      · rfl
  | V s' =>
      simp only [op]
      split
      · exact Function.update_of_ne (Ne.symm hs) ..
      · rfl

theorem queue_P (m : Sems σ π) (p : π) (s : σ) :
    (m.op p (.P s)).queue s = if m.word s ≤ 0 then m.queue s ++ [p] else m.queue s := by
  simp only [op]
  split
  · exact Function.update_self ..
  · rfl

theorem queue_V (m : Sems σ π) (p : π) (s : σ) :
    (m.op p (.V s)).queue s = if m.word s < 0 then (m.queue s).tail else m.queue s := by
  simp only [op]
  split
  · exact Function.update_self ..
  · rfl

-- Only its own process comes to a queue, by a P.
theorem mem_queue_op (h : q ∈ (m.op p o).queue s) : q ∈ m.queue s ∨ (q = p ∧ o = .P s) := by
  by_cases hs : o.sem = s
  · subst hs
    cases o with
    | P s =>
        rw [Op.sem, queue_P] at h
        split at h
        · rw [List.mem_append, List.mem_singleton] at h
          exact h.imp id fun hq => ⟨hq, rfl⟩
        · exact Or.inl h
    | V s =>
        rw [Op.sem, queue_V] at h
        split at h
        · exact Or.inl (List.mem_of_mem_tail h)
        · exact Or.inl h
  · rw [queue_op_of_ne hs] at h
    exact Or.inl h

theorem mem_queue_vector (h : q ∈ (m.vector p ops).queue s) :
    q ∈ m.queue s ∨ (q = p ∧ Op.P s ∈ ops) := by
  induction ops generalizing m with
  | nil => exact Or.inl h
  | cons o ops ih =>
      rcases ih h with h | ⟨hq, ho⟩
      · rcases mem_queue_op h with h | ⟨hq, ho⟩
        · exact Or.inl h
        · exact Or.inr ⟨hq, ho ▸ List.mem_cons_self⟩
      · exact Or.inr ⟨hq, List.mem_cons_of_mem o ho⟩

theorem balanced_op (h : m.Balanced s) (p : π) (o : Op σ) : (m.op p o).Balanced s := by
  unfold Balanced at h ⊢
  rw [word_op]
  by_cases hs : o.sem = s
  · subst hs
    rw [if_pos rfl]
    cases o with
    | P s =>
        rw [Op.sem] at h ⊢
        rw [queue_P, Op.adds]
        split
        · rw [List.length_append, List.length_singleton]
          omega
        · omega
    | V s =>
        rw [Op.sem] at h ⊢
        rw [queue_V, Op.adds]
        split
        · rw [List.length_tail]
          omega
        · omega
  · rw [if_neg hs, queue_op_of_ne hs, Int.add_zero]
    exact h

theorem balanced_vector (h : m.Balanced s) (p : π) (ops : List (Op σ)) :
    (m.vector p ops).Balanced s := by
  induction ops generalizing m with
  | nil => exact h
  | cons o ops ih => exact ih (balanced_op h p o)

theorem vector_append (ops ops' : List (Op σ)) (m : Sems σ π) (p : π) :
    m.vector p (ops ++ ops') = (m.vector p ops).vector p ops' := by
  induction ops generalizing m with
  | nil => rfl
  | cons o ops ih => exact ih _

theorem queue_vector_of_ne (h : ∀ o ∈ ops, o.sem ≠ s) : (m.vector p ops).queue s = m.queue s := by
  induction ops generalizing m with
  | nil => rfl
  | cons o ops ih =>
      rw [vector, ih fun o' ho' => h o' (List.mem_cons_of_mem o ho'),
        queue_op_of_ne (h o List.mem_cons_self)]

-- A vector that operates once on a semaphore.
theorem queue_vector_once (pre post : List (Op σ)) (hpre : ∀ o' ∈ pre, o'.sem ≠ o.sem)
    (hpost : ∀ o' ∈ post, o'.sem ≠ o.sem) :
    (m.vector p (pre ++ o :: post)).queue o.sem = (m.op p o).queue o.sem := by
  have hword : (m.vector p pre).word o.sem = m.word o.sem := by
    rw [word_vector, List.filter_eq_nil_iff.mpr fun o' ho' => by simpa using hpre o' ho']
    simp
  have hqueue : (m.vector p pre).queue o.sem = m.queue o.sem := queue_vector_of_ne hpre
  rw [vector_append, vector, queue_vector_of_ne hpost]
  cases o with
  | P s =>
      rw [Op.sem] at hword hqueue ⊢
      rw [queue_P, queue_P, hword, hqueue]
  | V s =>
      rw [Op.sem] at hword hqueue ⊢
      rw [queue_V, queue_V, hword, hqueue]

theorem word_vector_once (pre post : List (Op σ)) (hpre : ∀ o' ∈ pre, o'.sem ≠ o.sem)
    (hpost : ∀ o' ∈ post, o'.sem ≠ o.sem) :
    (m.vector p (pre ++ o :: post)).word o.sem = (m.op p o).word o.sem := by
  have hnil : ∀ l : List (Op σ), (∀ o' ∈ l, o'.sem ≠ o.sem) →
      l.filter (fun o' => o'.sem = o.sem) = [] := by
    intro l hl
    exact List.filter_eq_nil_iff.mpr fun o' ho' => by simpa using hl o' ho'
  rw [word_vector, word_op, List.filter_append, List.filter_cons, hnil pre hpre, hnil post hpost]
  simp

section Permits

variable {n : Int} {inside : Finset π}

theorem Permits.vector_once (h : Permits (m.op p o) o.sem n inside) (pre post : List (Op σ))
    (hpre : ∀ o' ∈ pre, o'.sem ≠ o.sem) (hpost : ∀ o' ∈ post, o'.sem ≠ o.sem) :
    Permits (m.vector p (pre ++ o :: post)) o.sem n inside :=
  h.frame (word_vector_once pre post hpre hpost) (queue_vector_once pre post hpre hpost)

theorem Permits.frame_op (h : Permits m s n inside) (ho : o.sem ≠ s) :
    Permits (m.op p o) s n inside := by
  apply h.frame
  · rw [word_op, if_neg ho, Int.add_zero]
  · exact queue_op_of_ne ho

-- A V by somebody who has no permit is one more permit.
theorem Permits.grant (h : Permits m s n inside) (p : π) :
    Permits (m.op p (.V s)) s (n + 1) inside where
  word := by
    rw [word_op, Op.sem, if_pos rfl, Op.adds, h.word]
    omega
  within q hq := by
    rcases mem_queue_op hq with hm | ⟨-, ho⟩
    · exact h.within q hm
    · cases ho
  nodup := by
    rw [queue_V]
    split
    · exact h.nodup.sublist (List.tail_sublist _)
    · exact h.nodup
  balanced := balanced_op h.balanced p _

variable [DecidableEq π]

theorem Permits.enter (h : Permits m s n inside) (hp : p ∉ inside) :
    Permits (m.op p (.P s)) s n (insert p inside) where
  word := by
    rw [word_op, Op.sem, if_pos rfl, Op.adds, h.word, Finset.card_insert_of_notMem hp]
    omega
  within q hq := by
    rcases mem_queue_op hq with hq | ⟨rfl, -⟩
    · exact Finset.mem_insert_of_mem (h.within q hq)
    · exact Finset.mem_insert_self ..
  nodup := by
    rw [queue_P]
    split
    · refine List.nodup_append.mpr ⟨h.nodup, by simp, fun a ha b hb heq => hp ?_⟩
      rw [List.mem_singleton] at hb
      exact hb ▸ heq ▸ h.within a ha
    · exact h.nodup
  balanced := balanced_op h.balanced p _

theorem Permits.leave (h : Permits m s n inside) (hp : p ∈ inside) (hpq : p ∉ m.queue s) :
    Permits (m.op p (.V s)) s n (inside.erase p) where
  word := by
    have hpos := Finset.card_pos.mpr ⟨p, hp⟩
    rw [word_op, Op.sem, if_pos rfl, Op.adds, h.word, Finset.card_erase_of_mem hp]
    omega
  within q hq := by
    rcases mem_queue_op hq with hm | ⟨-, ho⟩
    · have hne : q ≠ p := fun heq => hpq (heq ▸ hm)
      exact Finset.mem_erase.mpr ⟨hne, h.within q hm⟩
    · cases ho
  nodup := by
    rw [queue_V]
    split
    · exact h.nodup.sublist (List.tail_sublist _)
    · exact h.nodup
  balanced := balanced_op h.balanced p _

end Permits

end Sems

section Acts

-- What happens to a system of semaphores: a process issues a vector, or some
-- processes go and give back what they wait for.
inductive Act (σ π : Type*) where
  | vector (p : π) (ops : List (Op σ))
  | withdraw (dead : π → Bool)

def Act.ops : Act σ π → List (Op σ)
  | .vector _ ops => ops
  | .withdraw _ => []

namespace Sems

variable {m m' : Sems σ π} {s : σ} {U : Set σ} {a : Act σ π} {as : List (Act σ π)}

def withdraw (m : Sems σ π) (dead : π → Bool) : Sems σ π where
  word s := m.word s + (m.queue s).countP dead
  queue s := (m.queue s).filter fun p => !dead p

-- The same on some of the semaphores.
def Agree (U : Set σ) (m m' : Sems σ π) : Prop :=
  ∀ s ∈ U, m.word s = m'.word s ∧ m.queue s = m'.queue s

theorem Agree.trans {m'' : Sems σ π} (h : Agree U m m') (h' : Agree U m' m'') :
    Agree U m m'' :=
  fun s hs => ⟨(h s hs).1.trans (h' s hs).1, (h s hs).2.trans (h' s hs).2⟩

theorem Agree.symm (h : Agree U m m') : Agree U m' m :=
  fun s hs => ⟨(h s hs).1.symm, (h s hs).2.symm⟩

theorem Agree.withdraw (h : Agree U m m') (dead : π → Bool) :
    Agree U (m.withdraw dead) (m'.withdraw dead) := by
  intro s hs
  obtain ⟨hword, hqueue⟩ := h s hs
  simp only [Sems.withdraw, hword, hqueue, and_self]

theorem balanced_withdraw (h : m.Balanced s) (dead : π → Bool) :
    (m.withdraw dead).Balanced s := by
  have hlen := (m.queue s).length_eq_countP_add_countP dead
  have hfilter : ((m.queue s).filter fun p => !dead p).length =
      (m.queue s).countP fun p => ¬ dead p := by
    rw [List.countP_eq_length_filter]
    simp
  unfold Balanced at h ⊢
  simp only [withdraw]
  rw [hfilter]
  omega

variable [DecidableEq σ]

def act (m : Sems σ π) : Act σ π → Sems σ π
  | .vector p ops => m.vector p ops
  | .withdraw dead => m.withdraw dead

-- How many have gone while they waited on the semaphore.
def withdrawn (s : σ) : List (Act σ π) → Sems σ π → ℕ
  | [], _ => 0
  | .vector p ops :: as, m => withdrawn s as (m.vector p ops)
  | .withdraw dead :: as, m => (m.queue s).countP dead + withdrawn s as (m.withdraw dead)

theorem Agree.op {o : Op σ} (h : Agree U m m') (p : π) : Agree U (m.op p o) (m'.op p o) := by
  intro s hs
  obtain ⟨hword, hqueue⟩ := h s hs
  refine ⟨by rw [word_op, word_op, hword], ?_⟩
  by_cases ho : o.sem = s
  · subst ho
    cases o with
    | P s =>
        rw [Op.sem] at hword hqueue ⊢
        rw [queue_P, queue_P, hword, hqueue]
    | V s =>
        rw [Op.sem] at hword hqueue ⊢
        rw [queue_V, queue_V, hword, hqueue]
  · rw [queue_op_of_ne ho, queue_op_of_ne ho, hqueue]

theorem Agree.vector (h : Agree U m m') (p : π) (ops : List (Op σ)) :
    Agree U (m.vector p ops) (m'.vector p ops) := by
  induction ops generalizing m m' with
  | nil => exact h
  | cons o ops ih => exact ih (h.op p)

theorem Agree.act (h : Agree U m m') (a : Act σ π) : Agree U (m.act a) (m'.act a) := by
  cases a with
  | vector p ops => exact h.vector p ops
  | withdraw dead => exact h.withdraw dead

theorem balanced_act (h : m.Balanced s) (a : Act σ π) : (m.act a).Balanced s := by
  cases a with
  | vector p ops => exact balanced_vector h p ops
  | withdraw dead => exact balanced_withdraw h dead

theorem balanced_acts (h : m.Balanced s) (as : List (Act σ π)) :
    (as.foldl act m).Balanced s := by
  induction as generalizing m with
  | nil => exact h
  | cons a as ih => exact ih (balanced_act h a)

theorem word_vector_count (ops : List (Op σ)) (m : Sems σ π) (p : π) (s : σ) :
    (m.vector p ops).word s = m.word s + ops.count (.V s) - ops.count (.P s) := by
  induction ops generalizing m with
  | nil => simp [vector]
  | cons o ops ih =>
      rw [vector, ih, word_op, List.count_cons, List.count_cons]
      cases o with
      | P s' =>
          by_cases hs : s' = s
          · simp [Op.sem, Op.adds, hs]
            omega
          · simp [Op.sem, hs]
      | V s' =>
          by_cases hs : s' = s
          · simp [Op.sem, Op.adds, hs]
            omega
          · simp [Op.sem, hs]

-- A word is what it was at first, and what the operations and those who have gone
-- have added to it.
theorem word_acts (as : List (Act σ π)) (m : Sems σ π) (s : σ) :
    (as.foldl act m).word s = m.word s + (as.flatMap Act.ops).count (.V s) -
      (as.flatMap Act.ops).count (.P s) + withdrawn s as m := by
  induction as generalizing m with
  | nil => simp [withdrawn]
  | cons a as ih =>
      rw [List.foldl_cons, ih, List.flatMap_cons, List.count_append, List.count_append]
      cases a with
      | vector p ops =>
          rw [act, word_vector_count, withdrawn, Act.ops]
          push_cast
          omega
      | withdraw dead =>
          rw [act, withdrawn, Act.ops]
          simp only [withdraw, List.count_nil]
          push_cast
          omega

-- Of the P's whose callers have not gone, as many have let their callers through as
-- there have been units, at first and from V's; in whatever order they came.
theorem passed_acts (h : m.Balanced s) (as : List (Act σ π)) :
    ((as.flatMap Act.ops).count (.P s) : Int) - withdrawn s as m -
        ((as.foldl act m).queue s).length =
      min (((as.flatMap Act.ops).count (.P s) : Int) - withdrawn s as m)
        (m.word s + (as.flatMap Act.ops).count (.V s)) := by
  have hb := balanced_acts h as
  unfold Balanced at hb
  rw [hb, word_acts]
  omega

end Sems

end Acts

section Carries

variable {τ ρ : Type*}

def Op.map (f : σ → τ) : Op σ → Op τ
  | .P s => .P (f s)
  | .V s => .V (f s)

def Op.isP : Op σ → Bool
  | .P _ => true
  | .V _ => false

theorem Op.map_isP (f : σ → τ) (o : Op σ) : (o.map f).isP = o.isP := by
  cases o with
  | P s => rfl
  | V s => rfl

theorem Op.map_sem (f : σ → τ) (o : Op σ) : (o.map f).sem = f o.sem := by
  cases o with
  | P s => rfl
  | V s => rfl

theorem Op.map_adds (f : σ → τ) (o : Op σ) : (o.map f).adds = o.adds := by
  cases o with
  | P s => rfl
  | V s => rfl

namespace Sems

-- One system of semaphores inside another one, its semaphores and its processes
-- under other names.
def Carries (f : σ → τ) (g : π → ρ) (m : Sems σ π) (m' : Sems τ ρ) : Prop :=
  ∀ s, m'.word (f s) = m.word s ∧ m'.queue (f s) = (m.queue s).map g

variable {f : σ → τ} {g : π → ρ} {m : Sems σ π} {m' : Sems τ ρ} {p : π}

theorem Carries.blocked (h : Carries f g m m') (hp : m.Blocked p) : m'.Blocked (g p) := by
  obtain ⟨s, hs⟩ := hp
  exact ⟨f s, (h s).2 ▸ List.mem_map_of_mem hs⟩

-- Nobody is withdrawn who waits.
theorem Carries.withdraw (h : Carries f g m m') {dead : ρ → Bool}
    (hdead : ∀ p, dead (g p) → ¬ m.Blocked p) : Carries f g m (m'.withdraw dead) := by
  intro s
  obtain ⟨hword, hqueue⟩ := h s
  have halive : ∀ q ∈ m'.queue (f s), ¬ dead q = true := by
    rw [hqueue]
    intro q hq hd
    obtain ⟨p, hp, rfl⟩ := List.mem_map.mp hq
    exact hdead p hd ⟨s, hp⟩
  constructor
  · show m'.word (f s) + (m'.queue (f s)).countP dead = m.word s
    rw [List.countP_eq_zero.mpr halive, hword]
    exact Int.add_zero _
  · show (m'.queue (f s)).filter (fun p => !dead p) = (m.queue s).map g
    rw [← hqueue]
    refine List.filter_eq_self.mpr fun q hq => ?_
    simpa using halive q hq

variable [DecidableEq σ] [DecidableEq τ]

theorem Carries.op (hf : Function.Injective f) (h : Carries f g m m') (p : π) (o : Op σ) :
    Carries f g (m.op p o) (m'.op (g p) (o.map f)) := by
  intro s
  obtain ⟨hword, hqueue⟩ := h s
  constructor
  · rw [word_op, word_op, Op.map_sem, Op.map_adds, hword]
    simp only [hf.eq_iff]
  · by_cases hs : o.sem = s
    · subst hs
      cases o with
      | P s =>
          show (m'.op (g p) (.P (f s))).queue (f s) = ((m.op p (.P s)).queue s).map g
          rw [queue_P, queue_P, (h s).1, (h s).2]
          split
          · rw [List.map_append, List.map_singleton]
          · rfl
      | V s =>
          show (m'.op (g p) (.V (f s))).queue (f s) = ((m.op p (.V s)).queue s).map g
          rw [queue_V, queue_V, (h s).1, (h s).2]
          split
          · rw [List.map_tail]
          · rfl
    · have hne : (o.map f).sem ≠ f s := by
        rw [Op.map_sem]
        exact hf.ne hs
      rw [queue_op_of_ne hs, queue_op_of_ne hne, hqueue]

theorem Carries.vector (hf : Function.Injective f) (h : Carries f g m m') (p : π) (ops : List (Op σ)) :
    Carries f g (m.vector p ops) (m'.vector (g p) (ops.map (Op.map f))) := by
  induction ops generalizing m m' with
  | nil => exact h
  | cons o ops ih => exact ih (h.op hf p o)

omit [DecidableEq σ] in
theorem Carries.outside (h : Carries f g m m') (q : ρ) {ops : List (Op τ)}
    (hops : ∀ o ∈ ops, ∀ s, o.sem ≠ f s) : Carries f g m (m'.vector q ops) := by
  induction ops generalizing m' with
  | nil => exact h
  | cons o ops ih =>
      refine ih (fun s => ?_) fun o' ho' => hops o' (List.mem_cons_of_mem o ho')
      have hne := hops o List.mem_cons_self s
      rw [word_op, if_neg hne, queue_op_of_ne hne, Int.add_zero]
      exact h s

-- What happens to the larger system is what happens to the smaller one, and other
-- things that do not concern it.
inductive Follows (f : σ → τ) (g : π → ρ) :
    Sems σ π → List (Act τ ρ) → List (Act σ π) → Prop
  | nil (n : Sems σ π) : Follows f g n [] []
  | vector (n : Sems σ π) (q : π) (ops : List (Op σ)) (as : List (Act τ ρ)) (bs : List (Act σ π))
      (h : Follows f g (n.vector q ops) as bs) :
      Follows f g n (.vector (g q) (ops.map (Op.map f)) :: as) (.vector q ops :: bs)
  | outside (n : Sems σ π) (q : ρ) (ops : List (Op τ)) (as : List (Act τ ρ)) (bs : List (Act σ π))
      (hops : ∀ o ∈ ops, ∀ s, o.sem ≠ f s) (h : Follows f g n as bs) :
      Follows f g n (.vector q ops :: as) bs
  | withdraw (n : Sems σ π) (dead : ρ → Bool) (as : List (Act τ ρ)) (bs : List (Act σ π))
      (hdead : ∀ q, dead (g q) → ¬ n.Blocked q) (h : Follows f g n as bs) :
      Follows f g n (.withdraw dead :: as) bs

theorem Follows.carries {as : List (Act τ ρ)} {bs : List (Act σ π)} (hf : Function.Injective f)
    (hs : Follows f g m as bs) (h : Carries f g m m') :
    Carries f g (bs.foldl act m) (as.foldl act m') := by
  induction hs generalizing m' with
  | nil n => exact h
  | vector n q ops as bs _ ih => exact ih (h.vector hf q ops)
  | outside n q ops as bs hops _ ih => exact ih (h.outside q hops)
  | withdraw n dead as bs hdead _ ih => exact ih (h.withdraw hdead)

omit [DecidableEq σ] [DecidableEq τ] in
theorem Carries.agree {m'' : Sems τ ρ} (h : Carries f g m m') (hagree : Agree (Set.range f) m' m'') :
    Carries f g m m'' := by
  intro s
  obtain ⟨hword, hqueue⟩ := hagree (f s) ⟨s, rfl⟩
  rw [← hword, ← hqueue]
  exact h s

omit [DecidableEq τ] in
-- What happens first, and what follows it.
theorem Follows.cons {a : Act τ ρ} {as : List (Act τ ρ)} {bs : List (Act σ π)}
    (h : Follows f g m (a :: as) bs) : ∃ cs bs', bs = cs ++ bs' ∧ Follows f g m [a] cs ∧
      Follows f g (cs.foldl act m) as bs' := by
  cases h with
  | vector _ q ops _ bs h =>
      exact ⟨[.vector q ops], bs, rfl, .vector m q ops [] [] (.nil _), h⟩
  | outside _ q ops _ _ hops h => exact ⟨[], bs, rfl, .outside m q ops [] [] hops (.nil m), h⟩
  | withdraw _ dead _ _ hdead h => exact ⟨[], bs, rfl, .withdraw m dead [] [] hdead (.nil m), h⟩

end Sems

end Carries

-- The processes of which something holds, before and after it changes for one.
section Inside

variable [Fintype π] {Q Q' : π → Prop} [DecidablePred Q] [DecidablePred Q'] {p : π}

def inside (Q : π → Prop) [DecidablePred Q] : Finset π := Finset.univ.filter Q

theorem mem_inside : p ∈ inside Q ↔ Q p := by
  rw [inside, Finset.mem_filter]
  exact and_iff_right (Finset.mem_univ p)

theorem inside_congr (h : ∀ q, Q' q ↔ Q q) : inside Q' = inside Q := by
  ext q
  rw [mem_inside, mem_inside]
  exact h q

variable [DecidableEq π]

theorem inside_insert (hp : Q' p) (h : ∀ q, q ≠ p → (Q' q ↔ Q q)) :
    inside Q' = insert p (inside Q) := by
  ext q
  rw [Finset.mem_insert, mem_inside, mem_inside]
  by_cases hq : q = p
  · subst hq
    exact iff_of_true hp (Or.inl rfl)
  · rw [h q hq]
    exact ⟨Or.inr, fun h => h.resolve_left hq⟩

theorem inside_erase (hp : ¬ Q' p) (h : ∀ q, q ≠ p → (Q' q ↔ Q q)) :
    inside Q' = (inside Q).erase p := by
  ext q
  rw [Finset.mem_erase, mem_inside, mem_inside]
  by_cases hq : q = p
  · subst hq
    exact iff_of_false hp fun h => h.1 rfl
  · rw [h q hq]
    exact ⟨fun h => ⟨hq, h⟩, And.right⟩

end Inside

end Semaphores
