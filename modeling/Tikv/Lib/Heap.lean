import Mathlib.Data.List.Chain
/-!
# A heap of cells, and doubly linked lists in it

A `Heap α` maps addresses to cells of `α`. `alloc` hands out the next
fresh address; `free` and `modify` fail (`none`) on an address that holds no
cell, as a double free or a write through a dangling pointer would. Address
`0` of the empty heap is never handed out, so it can stand for a dangling
pointer.

A `Node α` has the `prev` and `next` addresses of a doubly linked list and a
payload. `Heap.Chain h l` says that the nodes at the addresses `l` are linked
in order both ways: each `next` names the following node and each `prev` the
one before. `Heap.link a b` writes `a.next := b` and `b.prev := a`;
`Heap.unlink x` links the two neighbours of `x` to each other.

Results:
* `fields_modify`, `Relinked`, `Relinks`: what `modify` and `link` change, field by
  field (`link_eq_some`).
* `chain_frame`: a chain survives any change that keeps the `next` of its
  nodes but the last and the `prev` of its nodes but the first; `chain_modify`,
  `chain_alloc` and `chain_free` are its cases.
* `chain_link`: linking the end of one chain to the start of another joins
  them; `unlink_eq_some` and `exists_unlink` cut a node out of the middle of a
  chain, `insertAfter_eq_some` and `splice_eq_some` put one in after its first node.
* `length_le_next`: distinct live cells are no more than the addresses handed out.
-/

/-- Cells of `α` at natural-number addresses; every address from `next` on is
free. -/
structure Heap (α : Type) where
  cells : Nat → Option α
  next : Nat
  fresh : ∀ p, next ≤ p → cells p = none

namespace Heap

variable {α : Type}

/-- The empty heap. Allocation starts at `1`, so that `0` is never a cell. -/
def empty : Heap α := ⟨fun _ => none, 1, fun _ _ => rfl⟩

/-- Address `p` holds a cell. -/
def Live (h : Heap α) (p : Nat) : Prop := (h.cells p).isSome

instance (h : Heap α) (p : Nat) : Decidable (h.Live p) :=
  inferInstanceAs (Decidable ((h.cells p).isSome = true))

/-- No address holds a cell. -/
def IsEmpty (h : Heap α) : Prop := ∀ p, h.cells p = none

/-- A new cell at the next fresh address. -/
def alloc (h : Heap α) (a : α) : Nat × Heap α :=
  (h.next, ⟨fun q => if q = h.next then some a else h.cells q, h.next + 1, fun p hp => by
    rw [if_neg (by omega)]
    exact h.fresh p (by omega)⟩)

/-- Free the cell at `p`; `none` when there is none. -/
def free (h : Heap α) (p : Nat) : Option (Heap α) :=
  if h.Live p then
    some ⟨fun q => if q = p then none else h.cells q, h.next, fun q hq => by
      split
      · rfl
      · exact h.fresh q hq⟩
  else none

/-- Change the cell at `p` by `f`; `none` when there is none. -/
def modify (h : Heap α) (p : Nat) (f : α → α) : Option (Heap α) :=
  match hp : h.cells p with
  | some a =>
    some ⟨fun q => if q = p then some (f a) else h.cells q, h.next, fun q hq => by
      rw [if_neg (fun e => by subst e; rw [h.fresh _ hq] at hp; cases hp)]
      exact h.fresh q hq⟩
  | none => none

theorem live_iff {h : Heap α} {p : Nat} : h.Live p ↔ ∃ a, h.cells p = some a :=
  Option.isSome_iff_exists

theorem not_live_next (h : Heap α) : ¬ h.Live h.next := by
  rw [Live, h.fresh h.next le_rfl]
  simp

theorem lt_next_of_live {h : Heap α} {p : Nat} (hp : h.Live p) : p < h.next := by
  by_contra hn
  rw [Live, h.fresh p (by omega)] at hp
  cases hp

/-- Distinct live addresses are no more than the addresses handed out. -/
theorem length_le_next {h : Heap α} {l : List Nat} (hnd : l.Nodup) (hl : ∀ p ∈ l, h.Live p) :
    l.length ≤ h.next := by
  simpa using hnd.length_le_of_subset fun p hp => List.mem_range.mpr (lt_next_of_live (hl p hp))

@[simp] theorem cells_empty (p : Nat) : (empty : Heap α).cells p = none := rfl

@[simp] theorem next_empty : (empty : Heap α).next = 1 := rfl

@[simp] theorem next_alloc (h : Heap α) (a : α) : (h.alloc a).2.next = h.next + 1 := rfl

@[simp] theorem alloc_fst (h : Heap α) (a : α) : (h.alloc a).1 = h.next := rfl

@[simp] theorem cells_alloc (h : Heap α) (a : α) (q : Nat) :
    (h.alloc a).2.cells q = if q = h.next then some a else h.cells q := rfl

theorem live_alloc (h : Heap α) (a : α) (q : Nat) : (h.alloc a).2.Live q ↔ q = h.next ∨ h.Live q := by
  rw [Live, Live, cells_alloc]
  split <;> simp [*]

theorem free_eq_some {h h' : Heap α} {p : Nat} (hf : h.free p = some h') :
    h.Live p ∧ (∀ q, h'.cells q = if q = p then none else h.cells q) ∧ h'.next = h.next := by
  unfold free at hf
  split at hf
  · cases hf
    exact ⟨‹_›, fun _ => rfl, rfl⟩
  · cases hf

theorem exists_free {h : Heap α} {p : Nat} (hp : h.Live p) :
    ∃ h', h.free p = some h' ∧ (∀ q, h'.cells q = if q = p then none else h.cells q) ∧ h'.next = h.next :=
  ⟨_, if_pos hp, fun _ => rfl, rfl⟩

theorem modify_eq_some {h h' : Heap α} {p : Nat} {f : α → α} (hm : h.modify p f = some h') :
    ∃ a, h.cells p = some a ∧ (∀ q, h'.cells q = if q = p then some (f a) else h.cells q) ∧
      h'.next = h.next := by
  unfold modify at hm
  split at hm
  · cases hm
    exact ⟨_, ‹_›, fun _ => rfl, rfl⟩
  · cases hm

theorem exists_modify {h : Heap α} {p : Nat} {a : α} (hp : h.cells p = some a) (f : α → α) :
    ∃ h', h.modify p f = some h' ∧ (∀ q, h'.cells q = if q = p then some (f a) else h.cells q) ∧
      h'.next = h.next := by
  unfold modify
  split
  · rename_i b hb
    rw [hp] at hb
    cases hb
    exact ⟨_, rfl, fun _ => rfl, rfl⟩
  · rename_i hb
    rw [hp] at hb
    cases hb

/-! ## Doubly linked lists -/

/-- A node of a doubly linked list. -/
structure Node (α : Type) where
  prev : Nat
  next : Nat
  data : α
  deriving DecidableEq, Repr

section Nodes

variable (h : Heap (Node α))

/-- The `next` field of the node at `p`. -/
def nextOf (p : Nat) : Option Nat := (h.cells p).map Node.next

/-- The `prev` field of the node at `p`. -/
def prevOf (p : Nat) : Option Nat := (h.cells p).map Node.prev

/-- The payload of the node at `p`. -/
def dataOf (p : Nat) : Option α := (h.cells p).map Node.data

/-- `u.next = v` and `v.prev = u`. -/
def Linked (u v : Nat) : Prop := h.nextOf u = some v ∧ h.prevOf v = some u

/-- The nodes at `l` are linked in order, both ways. -/
def Chain (l : List Nat) : Prop := l.IsChain h.Linked

/-- mirrors the write pair `a.next = b; b.prev = a` -/
def link (a b : Nat) : Option (Heap (Node α)) := do
  let h ← h.modify a fun n => { n with next := b }
  h.modify b fun n => { n with prev := a }

/-- Link the neighbours of `x` to each other. -/
def unlink (x : Nat) : Option (Heap (Node α)) := do
  let n ← h.cells x
  h.link n.prev n.next

/-- Put the node `x` right after `a`, before the node that followed `a`. -/
def insertAfter (a x : Nat) : Option (Heap (Node α)) := do
  let n ← h.cells a
  let h ← h.link x n.next
  h.link a x

end Nodes

variable {h h' h'' : Heap (Node α)}

theorem live_of_nextOf {p q : Nat} (hp : h.nextOf p = some q) : h.Live p := by
  unfold nextOf at hp
  unfold Live
  cases hc : h.cells p with
  | none => rw [hc] at hp; cases hp
  | some _ => rfl

theorem live_of_prevOf {p q : Nat} (hp : h.prevOf p = some q) : h.Live p := by
  unfold prevOf at hp
  unfold Live
  cases hc : h.cells p with
  | none => rw [hc] at hp; cases hp
  | some _ => rfl

/-- `h'` is `h` after `link a b`: `a.next = b`, `b.prev = a`, and nothing else
changed. -/
structure Relinked (h h' : Heap (Node α)) (a b : Nat) : Prop where
  nextOf : ∀ q, h'.nextOf q = if q = a then some b else h.nextOf q
  prevOf : ∀ q, h'.prevOf q = if q = b then some a else h.prevOf q
  dataOf : ∀ q, h'.dataOf q = h.dataOf q
  live : ∀ q, h'.Live q ↔ h.Live q
  next : h'.next = h.next

/-- `h'` has the payloads and the cells of `h`, and the same fresh address: only links
changed. -/
structure Relinks (h h' : Heap (Node α)) : Prop where
  dataOf : ∀ q, h'.dataOf q = h.dataOf q
  live : ∀ q, h'.Live q ↔ h.Live q
  next : h'.next = h.next

theorem Relinked.relinks {a b : Nat} (hr : Relinked h h' a b) : Relinks h h' :=
  ⟨hr.dataOf, hr.live, hr.next⟩

theorem Relinks.refl (h : Heap (Node α)) : Relinks h h := ⟨fun _ => rfl, fun _ => Iff.rfl, rfl⟩

theorem Relinks.trans (h₁ : Relinks h h') (h₂ : Relinks h' h'') : Relinks h h'' :=
  ⟨fun q => (h₂.dataOf q).trans (h₁.dataOf q), fun q => (h₂.live q).trans (h₁.live q), h₂.next.trans h₁.next⟩

/-- What `modify p f` changes of the links, the payloads and the cells. -/
theorem fields_modify {p : Nat} {f : Node α → Node α} (hm : h.modify p f = some h') :
    ∃ n, h.cells p = some n ∧ (∀ q, h'.nextOf q = if q = p then some (f n).next else h.nextOf q) ∧
      (∀ q, h'.prevOf q = if q = p then some (f n).prev else h.prevOf q) ∧
      (∀ q, h'.dataOf q = if q = p then some (f n).data else h.dataOf q) ∧
      (∀ q, h'.Live q ↔ h.Live q) ∧ h'.next = h.next := by
  obtain ⟨n, hn, hcells, hnext⟩ := modify_eq_some hm
  refine ⟨n, hn, fun q => ?_, fun q => ?_, fun q => ?_, fun q => ?_, hnext⟩
  · rw [nextOf, nextOf, hcells]; split <;> simp
  · rw [prevOf, prevOf, hcells]; split <;> simp
  · rw [dataOf, dataOf, hcells]; split <;> simp
  · rw [Live, Live, hcells]
    split
    · subst q; simp [hn]
    · rfl

theorem modify_next_eq_some {p b : Nat} (hm : h.modify p (fun n => { n with next := b }) = some h') :
    (∀ q, h'.nextOf q = if q = p then some b else h.nextOf q) ∧ (∀ q, h'.prevOf q = h.prevOf q) ∧
      Relinks h h' := by
  obtain ⟨n, hn, hnext, hprev, hdata, hlive, hfresh⟩ := fields_modify hm
  refine ⟨hnext, fun q => ?_, fun q => ?_, hlive, hfresh⟩
  · rw [hprev]; split <;> simp_all [prevOf]
  · rw [hdata]; split <;> simp_all [dataOf]

theorem modify_prev_eq_some {p a : Nat} (hm : h.modify p (fun n => { n with prev := a }) = some h') :
    (∀ q, h'.nextOf q = h.nextOf q) ∧ (∀ q, h'.prevOf q = if q = p then some a else h.prevOf q) ∧
      Relinks h h' := by
  obtain ⟨n, hn, hnext, hprev, hdata, hlive, hfresh⟩ := fields_modify hm
  refine ⟨fun q => ?_, hprev, fun q => ?_, hlive, hfresh⟩
  · rw [hnext]; split <;> simp_all [nextOf]
  · rw [hdata]; split <;> simp_all [dataOf]

theorem link_eq_some {a b : Nat} (ha : h.Live a) (hb : h.Live b) :
    ∃ h', h.link a b = some h' ∧ Relinked h h' a b := by
  obtain ⟨na, hna⟩ := live_iff.mp ha
  obtain ⟨h₁, hm₁, -⟩ := exists_modify hna fun n => { n with next := b }
  obtain ⟨hnext₁, hprev₁, hr₁⟩ := modify_next_eq_some hm₁
  obtain ⟨nb, hnb⟩ := live_iff.mp ((hr₁.live b).mpr hb)
  obtain ⟨h₂, hm₂, -⟩ := exists_modify hnb fun n => { n with prev := a }
  obtain ⟨hnext₂, hprev₂, hr₂⟩ := modify_prev_eq_some hm₂
  have hr := hr₁.trans hr₂
  refine ⟨h₂, by rw [link, hm₁]; exact hm₂, fun q => ?_, fun q => ?_, hr.dataOf, hr.live, hr.next⟩
  · rw [hnext₂, hnext₁]
  · rw [hprev₂, hprev₁]

/-- A chain survives a change that keeps the `next` of every node but the last and
the `prev` of every node but the first. -/
theorem chain_frame {l : List Nat} (hc : h.Chain l) (hnext : ∀ x ∈ l.dropLast, h'.nextOf x = h.nextOf x)
    (hprev : ∀ y ∈ l.tail, h'.prevOf y = h.prevOf y) : h'.Chain l := by
  induction l with
  | nil => exact List.isChain_nil
  | cons a l ih =>
    cases l with
    | nil => exact List.isChain_singleton a
    | cons b l =>
      obtain ⟨⟨hab, hba⟩, hrest⟩ := List.isChain_cons_cons.mp hc
      refine List.isChain_cons_cons.mpr ⟨⟨?_, ?_⟩, ih hrest ?_ ?_⟩
      · rw [hnext a (by simp), hab]
      · rw [hprev b (by simp), hba]
      · intro x hx
        exact hnext x (List.mem_cons_of_mem a hx)
      · intro y hy
        exact hprev y (List.mem_cons_of_mem b hy)

/-- A write that keeps a node's links keeps every chain. -/
theorem chain_modify {l : List Nat} {p : Nat} {f : Node α → Node α}
    (hf : ∀ n, (f n).prev = n.prev ∧ (f n).next = n.next) (hc : h.Chain l) (hm : h.modify p f = some h') :
    h'.Chain l := by
  obtain ⟨n, hn, hnext, hprev, -⟩ := fields_modify hm
  refine chain_frame hc (fun q _ => ?_) (fun q _ => ?_)
  · rw [hnext]; split <;> simp_all [nextOf]
  · rw [hprev]; split <;> simp_all [prevOf]

/-- Linking the last node of one chain to the first of another joins the two. -/
theorem chain_link {A B : List Nat} {a b : Nat} (hA : h.Chain (A ++ [a])) (hB : h.Chain (b :: B))
    (hnd : (A ++ a :: b :: B).Nodup) (hr : Relinked h h' a b) : h'.Chain (A ++ a :: b :: B) := by
  have hnd' := List.nodup_append.mp hnd
  have haA : a ∉ A := fun h => hnd'.2.2 a h a (by simp) rfl
  have hab : a ∉ b :: B := (List.nodup_cons.mp hnd'.2.1).1
  have hbB : b ∉ B := (List.nodup_cons.mp (List.nodup_cons.mp hnd'.2.1).2).1
  have hbA : b ∉ A ++ [a] := by
    have hba : b ≠ a := fun e => hab (by simp [e])
    simpa [hba] using fun h => hnd'.2.2 b h b (by simp) rfl
  have hA' : h'.Chain (A ++ [a]) := by
    refine chain_frame hA (fun x hx => ?_) (fun y hy => ?_)
    · rw [List.dropLast_concat] at hx
      rw [hr.nextOf, if_neg (by intro e; rw [e] at hx; exact haA hx)]
    · rw [hr.prevOf, if_neg (by intro e; rw [e] at hy; exact hbA (List.mem_of_mem_tail hy))]
  have hB' : h'.Chain (b :: B) := by
    refine chain_frame hB (fun x hx => ?_) (fun y hy => ?_)
    · rw [hr.nextOf, if_neg (by intro e; rw [e] at hx; exact hab ((List.dropLast_sublist _).subset hx))]
    · rw [hr.prevOf, if_neg (by intro e; rw [e] at hy; exact hbB hy)]
  have hlink : h'.Linked a b := ⟨by rw [hr.nextOf, if_pos rfl], by rw [hr.prevOf, if_pos rfl]⟩
  rw [← List.singleton_append, ← List.append_assoc]
  exact List.IsChain.append hA' hB' (fun x hx y hy => by simp_all)

/-- Cutting `x` out of a chain links its neighbours. -/
theorem unlink_eq_some {A B : List Nat} {a x b : Nat} (hc : h.Chain (A ++ a :: x :: b :: B))
    (hnd : (A ++ a :: x :: b :: B).Nodup) :
    ∃ h', h.unlink x = some h' ∧ Relinked h h' a b ∧ h'.Chain (A ++ a :: b :: B) := by
  have hsplit : h.Chain (A ++ [a]) ∧ h.Linked a x ∧ h.Linked x b ∧ h.Chain (b :: B) := by
    rw [Chain, show A ++ a :: x :: b :: B = (A ++ [a]) ++ x :: b :: B by simp, List.isChain_append,
      List.isChain_cons_cons] at hc
    exact ⟨hc.1, hc.2.2 a (by simp) x rfl, hc.2.1.1, hc.2.1.2⟩
  obtain ⟨hA, ⟨hax, hxa⟩, ⟨hxb, hbx⟩, hB⟩ := hsplit
  obtain ⟨n, hn⟩ := live_iff.mp (live_of_nextOf hxb)
  have hprev : n.prev = a := by simpa [prevOf, hn] using hxa
  have hnext : n.next = b := by simpa [nextOf, hn] using hxb
  obtain ⟨h', hl, hr⟩ := link_eq_some (live_of_nextOf hax) (live_of_prevOf hbx)
  refine ⟨h', by simp [unlink, hn, hprev, hnext, hl], hr, ?_⟩
  exact chain_link hA hB (List.Sublist.nodup (by simp) hnd) hr

/-- Cutting `x` out from between two nonempty parts of a chain joins them. -/
theorem exists_unlink {X Y : List Nat} {x : Nat} (hc : h.Chain (X ++ x :: Y)) (hX : X ≠ []) (hY : Y ≠ [])
    (hnd : (X ++ x :: Y).Nodup) : ∃ h', h.unlink x = some h' ∧ h'.Chain (X ++ Y) ∧ Relinks h h' := by
  obtain ⟨A, a, rfl⟩ := (List.eq_nil_or_concat X).resolve_left hX
  obtain ⟨b, B, rfl⟩ := List.exists_cons_of_ne_nil hY
  obtain ⟨h', hu, hr, hc'⟩ := unlink_eq_some (A := A) (B := B) (by simpa using hc) (by simpa using hnd)
  exact ⟨h', hu, by simpa using hc', hr.relinks⟩

/-- Putting a live node `x` that is not in a chain right after the chain's first node. -/
theorem insertAfter_eq_some {a x b : Nat} {B : List Nat} (hc : h.Chain (a :: b :: B)) (hx : h.Live x)
    (hnd : (a :: x :: b :: B).Nodup) :
    ∃ h', h.insertAfter a x = some h' ∧ h'.Chain (a :: x :: b :: B) ∧ Relinks h h' := by
  obtain ⟨⟨hab, hba⟩, hB⟩ := List.isChain_cons_cons.mp hc
  obtain ⟨n, hn⟩ := live_iff.mp (live_of_nextOf hab)
  have hnext : n.next = b := by simpa [nextOf, hn] using hab
  obtain ⟨h₁, hl₁, hr₁⟩ := link_eq_some hx (live_of_prevOf hba)
  have hc₁ : h₁.Chain (x :: b :: B) :=
    chain_link (A := []) (List.isChain_singleton x) hB (List.Nodup.sublist (by simp) hnd) hr₁
  obtain ⟨h₂, hl₂, hr₂⟩ := link_eq_some ((hr₁.live a).mpr (live_of_nextOf hab)) ((hr₁.live x).mpr hx)
  have hc₂ : h₂.Chain (a :: x :: b :: B) := chain_link (A := []) (List.isChain_singleton a) hc₁ hnd hr₂
  refine ⟨h₂, ?_, hc₂, hr₁.relinks.trans hr₂.relinks⟩
  simp [insertAfter, hn, hnext, hl₁, hl₂]

/-- Freeing a node outside a chain keeps the chain. -/
theorem chain_free {l : List Nat} {x : Nat} (hc : h.Chain l) (hx : x ∉ l) (hf : h.free x = some h') :
    h'.Chain l := by
  obtain ⟨-, hcells, -⟩ := free_eq_some hf
  refine chain_frame hc (fun q hq => ?_) (fun q hq => ?_)
  · rw [nextOf, nextOf, hcells, if_neg (by rintro rfl; exact hx ((List.dropLast_sublist _).subset hq))]
  · rw [prevOf, prevOf, hcells, if_neg (by rintro rfl; exact hx (List.mem_of_mem_tail hq))]

/-- Allocating keeps every chain of live nodes. -/
theorem chain_alloc {l : List Nat} (hc : h.Chain l) (hl : ∀ p ∈ l, h.Live p) (n : Node α) :
    (h.alloc n).2.Chain l := by
  have hcells : ∀ q ∈ l, (h.alloc n).2.cells q = h.cells q := fun q hq => by
    rw [cells_alloc, if_neg (Nat.ne_of_lt (lt_next_of_live (hl q hq)))]
  refine chain_frame hc (fun q hq => ?_) (fun q hq => ?_)
  · rw [nextOf, nextOf, hcells q ((List.dropLast_sublist _).subset hq)]
  · rw [prevOf, prevOf, hcells q (List.mem_of_mem_tail hq)]

/-- A node `x` whose own links already name `a` and `b` goes in between them by
`b.prev := x` and then `a.next := x`. -/
theorem splice_eq_some {a x b : Nat} {B : List Nat} (hc : h.Chain (a :: b :: B))
    (hnd : (a :: x :: b :: B).Nodup) (hxn : h.nextOf x = some b) (hxp : h.prevOf x = some a) :
    ∃ h₁ h₂, h.modify b (fun n => { n with prev := x }) = some h₁ ∧
      h₁.modify a (fun n => { n with next := x }) = some h₂ ∧ h₂.Chain (a :: x :: b :: B) ∧ Relinks h h₂ := by
  obtain ⟨⟨hab, hba⟩, hB⟩ := List.isChain_cons_cons.mp hc
  obtain ⟨nb, hnb⟩ := live_iff.mp (live_of_prevOf hba)
  obtain ⟨h₁, hm₁, -⟩ := exists_modify hnb fun n => { n with prev := x }
  obtain ⟨hn₁, hp₁, hr₁⟩ := modify_prev_eq_some hm₁
  obtain ⟨na, hna⟩ := live_iff.mp ((hr₁.live a).mpr (live_of_nextOf hab))
  obtain ⟨h₂, hm₂, -⟩ := exists_modify hna fun n => { n with next := x }
  obtain ⟨hn₂, hp₂, hr₂⟩ := modify_next_eq_some hm₂
  simp only [List.nodup_cons, List.mem_cons, not_or] at hnd
  obtain ⟨⟨hax, hab', haB⟩, ⟨hxb, hxB⟩, hbB, -⟩ := hnd
  have hB₂ : h₂.Chain (b :: B) := by
    refine chain_frame hB (fun q hq => ?_) (fun q hq => ?_)
    · have hqa : q ≠ a := by
        rintro rfl
        rcases List.mem_cons.mp ((List.dropLast_sublist _).subset hq) with e | e
        exacts [hab' e, haB e]
      rw [hn₂, if_neg hqa, hn₁]
    · rw [hp₂, hp₁, if_neg (by rintro rfl; exact hbB hq)]
  have hax₂ : h₂.Linked a x := ⟨by rw [hn₂, if_pos rfl], by rw [hp₂, hp₁, if_neg hxb, hxp]⟩
  have hxb₂ : h₂.Linked x b := ⟨by rw [hn₂, if_neg (Ne.symm hax), hn₁, hxn], by rw [hp₂, hp₁, if_pos rfl]⟩
  exact ⟨h₁, h₂, hm₁, hm₂, List.isChain_cons_cons.mpr ⟨hax₂, List.isChain_cons_cons.mpr ⟨hxb₂, hB₂⟩⟩,
    hr₁.trans hr₂⟩

end Heap
