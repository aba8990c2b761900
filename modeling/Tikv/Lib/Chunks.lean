import Mathlib.Data.List.Basic

/-!
# Exact chunks of a list

`List.chunksExact n l` is what the slice iterator `chunks_exact(n)` yields:
the whole chunks of `n` elements from the front, without the remainder of
fewer than `n` elements at the end. When there is no remainder,
`rchunks_exact(n)` yields the same chunks back to front.

The lemmas are those needed to read a list that is a sequence of
fixed-size records: a whole chunk in front is the first chunk
(`chunksExact_append`), the chunks of a flattened list of records are the
records (`chunksExact_flatten`), and the chunks with the remainder give the
list back (`flatten_chunksExact_append`). `eq_map_of_forall_mem_zip`
reads a list off as the image of another when it is checked pairwise
against it.
-/

namespace List

variable {α β : Type} {n : Nat}

/-- `chunks_exact(n)`: the chunks of `n` elements, front to back; the
remainder is left out. -/
def chunksExact (n : Nat) (l : List α) : List (List α) :=
  if _h : 0 < n ∧ n ≤ l.length then l.take n :: chunksExact n (l.drop n) else []
termination_by l.length
decreasing_by
  simp only [List.length_drop]
  omega

/-- `ChunksExact::remainder`: what is left after the whole chunks. -/
def chunksExactRemainder (n : Nat) (l : List α) : List α :=
  l.drop (n * (l.length / n))

theorem chunksExact_of_lt {l : List α} (h : l.length < n) : chunksExact n l = [] := by
  rw [chunksExact, dif_neg (by omega)]

theorem chunksExact_append (hn : 0 < n) {c : List α} (hc : c.length = n) (l : List α) :
    chunksExact n (c ++ l) = c :: chunksExact n l := by
  rw [chunksExact, dif_pos ⟨hn, by simp [hc]⟩, List.take_left' hc, List.drop_left' hc]

theorem length_of_mem_chunksExact {c : List α} (l : List α) (h : c ∈ chunksExact n l) :
    c.length = n := by
  induction l using chunksExact.induct n with
  | case1 l hlen ih =>
    rw [chunksExact, dif_pos hlen] at h
    rcases List.mem_cons.mp h with rfl | hmem
    · simp only [List.length_take]
      omega
    · exact ih hmem
  | case2 l hlen =>
    rw [chunksExact, dif_neg hlen] at h
    cases h

/-- The chunks of a list of records of `n` elements, flattened, are the records. -/
theorem chunksExact_flatten (hn : 0 < n) {L : List (List α)} (h : ∀ c ∈ L, c.length = n) :
    chunksExact n L.flatten = L := by
  induction L with
  | nil => exact chunksExact_of_lt (by simpa using hn)
  | cons c L ih =>
    rw [List.flatten_cons, chunksExact_append hn (h c (by simp)),
      ih (fun c' hc' => h c' (List.mem_cons_of_mem c hc'))]

theorem length_flatten_of_forall {L : List (List α)} (h : ∀ c ∈ L, c.length = n) :
    L.flatten.length = n * L.length := by
  induction L with
  | nil => rfl
  | cons c L ih =>
    rw [List.flatten_cons, List.length_append, h c (by simp),
      ih (fun c' hc' => h c' (List.mem_cons_of_mem c hc')), List.length_cons, Nat.mul_succ]
    omega

/-- A whole chunk taken off the front leaves the remainder as it was. -/
theorem chunksExactRemainder_drop (hn : 0 < n) {l : List α} (hl : n ≤ l.length) :
    chunksExactRemainder n (l.drop n) = chunksExactRemainder n l := by
  simp only [chunksExactRemainder, List.drop_drop, List.length_drop]
  congr 1
  rw [Nat.div_eq_sub_div hn hl, Nat.mul_add, Nat.mul_one]
  omega

theorem chunksExactRemainder_of_lt {l : List α} (h : l.length < n) : chunksExactRemainder n l = l := by
  rw [chunksExactRemainder, Nat.div_eq_of_lt h, Nat.mul_zero, List.drop_zero]

theorem length_chunksExactRemainder (l : List α) :
    (chunksExactRemainder n l).length = l.length % n := by
  rw [chunksExactRemainder, List.length_drop, Nat.mod_eq_sub_mul_div]

/-- The chunks, then the remainder, make the list. -/
theorem flatten_chunksExact_append (hn : 0 < n) (l : List α) :
    (chunksExact n l).flatten ++ chunksExactRemainder n l = l := by
  induction l using chunksExact.induct n with
  | case1 l hlen ih =>
    rw [chunksExact, dif_pos hlen, List.flatten_cons, List.append_assoc,
      ← chunksExactRemainder_drop hn hlen.2, ih, List.take_append_drop]
  | case2 l hlen =>
    rw [chunksExact_of_lt (by omega), chunksExactRemainder_of_lt (by omega)]
    rfl

/-- A list checked pairwise against `l₂`, each element the image of its
partner, is the image of `l₂`. -/
theorem eq_map_of_forall_mem_zip {f : β → α} {l₁ : List α} {l₂ : List β}
    (hlen : l₁.length = l₂.length) (h : ∀ p ∈ l₁.zip l₂, p.1 = f p.2) : l₁ = l₂.map f := by
  induction l₁ generalizing l₂ with
  | nil =>
    cases l₂ with
    | nil => rfl
    | cons b l₂ => simp at hlen
  | cons a l₁ ih =>
    cases l₂ with
    | nil => simp at hlen
    | cons b l₂ =>
      simp only [List.zip_cons_cons, List.mem_cons, forall_eq_or_imp] at h
      simp only [List.length_cons, Nat.add_right_cancel_iff] at hlen
      rw [List.map_cons, h.1, ih hlen h.2]

/-- The pairs of the image of a list with the list are each an image and its preimage. -/
theorem forall_mem_zip_map (f : β → α) (l : List β) : ∀ p ∈ (l.map f).zip l, p.1 = f p.2 := by
  induction l with
  | nil => simp
  | cons b l ih =>
    simp only [List.map_cons, List.zip_cons_cons, List.mem_cons, forall_eq_or_imp]
    exact ⟨trivial, ih⟩

end List
