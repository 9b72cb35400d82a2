import Mathlib.Logic.Function.Basic

/-!
# Ring

Circular doubly linked lists as the links of their nodes, with no node allocated and none freed. A
node is on a list when a walk along `next` from the head of the list gets to it before it gets back.

`Lists l head L` says that `L` are the nodes of the list in their order. Putting a node at the tail
and taking one off are the operations of `L` that they should be (`Lists.addTail`, `Lists.del`).
-/

namespace Ring

structure Links (α : Type*) where
  next : α → α
  prev : α → α

section

variable {α : Type*} [DecidableEq α] (l : Links α)

def Links.setNext (p q : α) : Links α := { l with next := Function.update l.next p q }

def Links.setPrev (p q : α) : Links α := { l with prev := Function.update l.prev p q }

/-- A head of an empty list. -/
def Links.init (p : α) : Links α := (l.setNext p p).setPrev p p

/-- Puts `new` between two neighbours. -/
def Links.insert (new prev next : α) : Links α :=
  (((l.setPrev next new).setNext new next).setPrev new prev).setNext prev new

def Links.addAfter (new head : α) : Links α := l.insert new head (l.next head)

def Links.addTail (new head : α) : Links α := l.insert new (l.prev head) head

/-- Takes a node off its list and leaves it linked to itself. -/
def Links.del (entry : α) : Links α :=
  (((l.setPrev (l.next entry) (l.prev entry)).setNext (l.prev entry) (l.next entry)).setNext
    entry entry).setPrev entry entry

end

/-- A walk from `head` gets to the node. -/
inductive Linked {α : Type*} (l : Links α) (head : α) : α → Prop
  | first : l.next head ≠ head → Linked l head (l.next head)
  | step {p : α} : Linked l head p → l.next p ≠ head → Linked l head (l.next p)

section

variable {α : Type*} {l : Links α} {head p : α}

theorem Linked.ne_nil (h : Linked l head p) : l.next head ≠ head := by
  induction h with
  | first hne => exact hne
  | step _ _ ih => exact ih

theorem not_linked_nil (h : l.next head = head) : ¬Linked l head p := fun hp => hp.ne_nil h

end

section

variable {α : Type*} [DecidableEq α] {l : Links α} {p q r new : α}

@[simp] theorem setNext_next : (l.setNext p q).next r = if r = p then q else l.next r :=
  Function.update_apply ..

@[simp] theorem setNext_prev : (l.setNext p q).prev = l.prev := rfl

@[simp] theorem setPrev_next : (l.setPrev p q).next = l.next := rfl

@[simp] theorem setPrev_prev : (l.setPrev p q).prev r = if r = p then q else l.prev r :=
  Function.update_apply ..

theorem insert_next : (l.insert new p q).next r =
    if r = p then new else if r = new then q else l.next r := by
  simp [Links.insert]

theorem insert_prev : (l.insert new p q).prev r =
    if r = new then p else if r = q then new else l.prev r := by
  simp [Links.insert]

theorem del_next : (l.del p).next r =
    if r = p then p else if r = l.prev p then l.next p else l.next r := by
  simp [Links.del]

theorem del_prev : (l.del p).prev r =
    if r = p then p else if r = l.next p then l.prev p else l.prev r := by
  simp [Links.del]

theorem init_next : (l.init p).next r = if r = p then p else l.next r := by simp [Links.init]

theorem init_prev : (l.init p).prev r = if r = p then p else l.prev r := by simp [Links.init]

end

/-! ## The nodes of a list -/

section

variable {α : Type*} {l l' : Links α} {p q x : α} {L A B : List α}

/-- The links from `p` along the nodes of `L` to `q`, both ways. -/
def Path (l : Links α) (p : α) : List α → α → Prop
  | [], q => l.next p = q ∧ l.prev q = p
  | x :: L, q => l.next p = x ∧ l.prev x = p ∧ Path l x L q

/-- The list of `head` has the nodes `L`, each once. -/
def Lists (l : Links α) (head : α) (L : List α) : Prop := Path l head L head ∧ (head :: L).Nodup

theorem path_append : Path l p (A ++ x :: B) q ↔ Path l p A x ∧ Path l x B q := by
  induction A generalizing p with
  | nil => simp [Path, and_assoc]
  | cons a A ih => simp [Path, ih, and_assoc]

theorem Path.next_head (h : Path l p L q) : l.next p = L.headD q := by
  cases L with
  | nil => exact h.1
  | cons x L => exact h.1

theorem Path.prev_mem (h : Path l p L q) : l.prev q ∈ p :: L := by
  induction L generalizing p with
  | nil => simp [h.2]
  | cons x L ih => exact List.mem_cons_of_mem _ (ih h.2.2)

/-- Links that differ in other nodes only. -/
theorem Path.congr (h : Path l p L q) (hn : ∀ y ∈ p :: L, l'.next y = l.next y)
    (hp : ∀ y ∈ L, l'.prev y = l.prev y) (hq : l'.prev q = l.prev q) : Path l' p L q := by
  induction L generalizing p with
  | nil => exact ⟨(hn p (by simp)).trans h.1, hq.trans h.2⟩
  | cons x L ih =>
    refine ⟨(hn p (by simp)).trans h.1, (hp x (by simp)).trans h.2.1, ih h.2.2 ?_ ?_⟩
    · exact fun y hy => hn y (List.mem_cons_of_mem _ hy)
    · exact fun y hy => hp y (List.mem_cons_of_mem _ hy)

/-- The last link leads to another node. -/
theorem Path.relink (h : Path l p L x) (hnd : (p :: L).Nodup)
    (hn : ∀ y ∈ p :: L, y ≠ l.prev x → l'.next y = l.next y)
    (hp : ∀ y ∈ L, l'.prev y = l.prev y) (hlast : l'.next (l.prev x) = q)
    (hq : l'.prev q = l.prev x) : Path l' p L q := by
  induction L generalizing p with
  | nil => exact ⟨h.2 ▸ hlast, hq.trans h.2⟩
  | cons a L ih =>
    have hne : p ≠ l.prev x := fun he =>
      (List.nodup_cons.mp hnd).1 (he ▸ h.2.2.prev_mem)
    refine ⟨(hn p (by simp) hne).trans h.1, (hp a (by simp)).trans h.2.1,
      ih h.2.2 (List.nodup_cons.mp hnd).2 ?_ ?_⟩
    · exact fun y hy => hn y (List.mem_cons_of_mem _ hy)
    · exact fun y hy => hp y (List.mem_cons_of_mem _ hy)

/-- A node of the list is not the one that an empty list would be linked to. -/
theorem Lists.next_ne (h : Lists l p L) (hx : x ∈ L) : l.next x ≠ x := by
  obtain ⟨A, B, rfl⟩ := List.append_of_mem hx
  obtain ⟨hpath, hnd⟩ := h
  have hB := (path_append.mp hpath).2
  have hxB := (List.nodup_append.mp (List.nodup_cons.mp hnd).2).2.1
  rw [hB.next_head]
  cases B with
  | nil =>
    rintro rfl
    exact (List.nodup_cons.mp hnd).1 (by simp)
  | cons b B =>
    rintro rfl
    exact (List.nodup_cons.mp hxB).1 (by simp)

end

section

variable {α : Type*} [DecidableEq α] {l : Links α} {head x new : α} {L A B : List α}

theorem Lists.addTail (h : Lists l head L) (hnew : new ∉ head :: L) :
    Lists (l.addTail new head) head (L ++ [new]) := by
  obtain ⟨hpath, hnd⟩ := h
  have hhead : head ≠ new := fun he => hnew (by simp [he])
  have hlast : l.prev head ≠ new := fun he => hnew (he ▸ hpath.prev_mem)
  refine ⟨path_append.mpr ⟨?_, ?_, ?_⟩, ?_⟩
  · refine hpath.relink hnd (fun y hy hne => ?_) (fun y hy => ?_) ?_ ?_
    · have hy' : y ≠ new := fun he => hnew (he ▸ hy)
      rw [Links.addTail, insert_next, if_neg hne, if_neg hy']
    · have hy' : y ≠ new := fun he => hnew (he ▸ List.mem_cons_of_mem _ hy)
      have hyh : y ≠ head := fun he => (List.nodup_cons.mp hnd).1 (he ▸ hy)
      rw [Links.addTail, insert_prev, if_neg hy', if_neg hyh]
    · rw [Links.addTail, insert_next, if_pos rfl]
    · rw [Links.addTail, insert_prev, if_pos rfl]
  · rw [Links.addTail, insert_next, if_neg hlast.symm, if_pos rfl]
  · rw [Links.addTail, insert_prev, if_neg hhead, if_pos rfl]
  · rw [← List.cons_append]
    exact List.nodup_append.mpr ⟨hnd, by simp, by
      rintro y hy z hz rfl
      obtain rfl := List.mem_singleton.mp hz
      exact hnew hy⟩

theorem Lists.del (h : Lists l head (A ++ x :: B)) : Lists (l.del x) head (A ++ B) := by
  obtain ⟨hpath, hnd⟩ := h
  obtain ⟨hA, hB⟩ := path_append.mp hpath
  have hperm : (head :: (A ++ x :: B)).Nodup ↔ (x :: head :: (A ++ B)).Nodup := by
    refine List.Perm.nodup_iff ?_
    exact (List.perm_middle.cons head).trans (List.Perm.swap x head _)
  obtain ⟨hx, hnd'⟩ := List.nodup_cons.mp (hperm.mp hnd)
  have hndA : (head :: A).Nodup := hnd'.sublist (by simp)
  have hprev : l.prev x ∈ head :: A := hA.prev_mem
  have hne : ∀ y ∈ head :: (A ++ B), y ≠ x := fun y hy he => hx (he ▸ hy)
  have hmemA : ∀ y ∈ head :: A, y ∈ head :: (A ++ B) := fun y hy => by
    rcases List.mem_cons.mp hy with rfl | hy
    · simp
    · simp [hy]
  have hpx : l.prev x ≠ x := hne _ (hmemA _ hprev)
  -- the new link over the node
  have hover : ∀ n, l.next x = n → n ∈ head :: (A ++ B) →
      (l.del x).next (l.prev x) = n ∧ (l.del x).prev n = l.prev x := by
    rintro n rfl hn
    rw [del_next, del_prev, if_neg hpx, if_pos rfl, if_neg (hne _ hn), if_pos rfl]
    exact ⟨rfl, rfl⟩
  have hfront : ∀ n, l.next x = n → n ∈ head :: (A ++ B) → n ∉ A →
      Path (l.del x) head A n := by
    intro n hn hmem hnA
    obtain ⟨h1, h2⟩ := hover n hn hmem
    refine hA.relink hndA (fun y hy hy' => ?_) (fun y hy => ?_) h1 h2
    · rw [del_next, if_neg (hne y (hmemA y hy)), if_neg hy']
    · have hyn : y ≠ l.next x := fun he => hnA (hn ▸ he ▸ hy)
      rw [del_prev, if_neg (hne y (by simp [hy])), if_neg hyn]
  refine ⟨?_, hnd'⟩
  cases B with
  | nil =>
    rw [List.append_nil]
    exact hfront head hB.1 (by simp) (List.nodup_cons.mp hndA).1
  | cons b B =>
    have hbA : b ∉ A := fun hb =>
      (List.nodup_append.mp (List.nodup_cons.mp hnd').2).2.2 b hb b (by simp) rfl
    refine path_append.mpr ⟨hfront b hB.1 (by simp) hbA, hB.2.2.congr (fun y hy => ?_)
      (fun y hy => ?_) ?_⟩
    · have hyA : y ∉ head :: A := by
        intro hyA
        rcases List.mem_cons.mp hyA with rfl | hyA
        · exact (List.nodup_cons.mp hnd').1 (List.mem_append_right _ hy)
        · exact (List.nodup_append.mp (List.nodup_cons.mp hnd').2).2.2 y hyA y hy rfl
      have hyp : y ≠ l.prev x := fun he => hyA (he ▸ hprev)
      rw [del_next, if_neg (hne y (by simp [List.mem_cons.mp hy])), if_neg hyp]
    · have hyb : y ≠ l.next x := by
        rw [hB.1]
        rintro rfl
        have hbB := (List.nodup_append.mp (List.nodup_cons.mp hnd').2).2.1
        exact (List.nodup_cons.mp hbB).1 hy
      rw [del_prev, if_neg (hne y (by simp [hy])), if_neg hyb]
    · have hhb : head ≠ l.next x := by
        rw [hB.1]
        rintro rfl
        exact (List.nodup_cons.mp hnd').1 (by simp)
      rw [del_prev, if_neg (hne head (by simp)), if_neg hhb]

/-- A node that is linked to itself is taken off no list. -/
theorem del_self (hn : l.next x = x) (hp : l.prev x = x) : l.del x = l := by
  have hnext : (l.del x).next = l.next := by
    funext y
    rw [del_next, hp]
    split
    · rename_i h
      rw [h, hn]
    · rfl
  have hprev : (l.del x).prev = l.prev := by
    funext y
    rw [del_prev, hn]
    split
    · rename_i h
      rw [h, hp]
    · rfl
  cases h : l.del x
  cases l
  simp_all

/-- The list has the nodes `L`, and every other node is linked to itself. -/
structure Owns (l : Links α) (head : α) (L : List α) : Prop where
  lists : Lists l head L
  alone : ∀ y ∉ head :: L, l.next y = y ∧ l.prev y = y

theorem Owns.addTail (h : Owns l head L) (hnew : new ∉ head :: L) :
    Owns (l.addTail new head) head (L ++ [new]) := by
  refine ⟨h.lists.addTail hnew, fun y hy => ?_⟩
  have hyL : y ∉ head :: L := fun hm => hy (by
    rcases List.mem_cons.mp hm with rfl | hm
    · simp
    · simp [hm])
  have hyn : y ≠ new := fun he => hy (by simp [he])
  have hyh : y ≠ head := fun he => hyL (by simp [he])
  have hlast : y ≠ l.prev head := fun he => hyL (he ▸ h.lists.1.prev_mem)
  rw [Links.addTail, insert_next, insert_prev, if_neg hlast, if_neg hyn, if_neg hyn, if_neg hyh]
  exact h.alone y hyL

theorem Owns.del (h : Owns l head (A ++ x :: B)) : Owns (l.del x) head (A ++ B) := by
  refine ⟨h.lists.del, fun y hy => ?_⟩
  by_cases hyx : y = x
  · subst hyx
    rw [del_next, del_prev, if_pos rfl, if_pos rfl]
    exact ⟨rfl, rfl⟩
  have hyL : y ∉ head :: (A ++ x :: B) := fun hm => hy (by
    simp only [List.mem_cons, List.mem_append] at hm ⊢
    rcases hm with hm | hm | hm | hm
    · exact .inl hm
    · exact .inr (.inl hm)
    · exact absurd hm hyx
    · exact .inr (.inr hm))
  obtain ⟨hA, hB⟩ := path_append.mp h.lists.1
  have hprev : y ≠ l.prev x := fun he => hyL (by
    rcases List.mem_cons.mp (he ▸ hA.prev_mem) with hm | hm
    · simp [hm]
    · simp [hm])
  have hnext : y ≠ l.next x := fun he => hyL (by
    rw [hB.next_head] at he
    cases B with
    | nil => simp [he]
    | cons b B => simp [he])
  rw [del_next, del_prev, if_neg hyx, if_neg hprev, if_neg hyx, if_neg hnext]
  exact h.alone y hyL

end

end Ring
