import Mathlib.Logic.Basic

/-!
# Decoding loops

Two loops every length-and-tag binary format has:

* `decodeN` reads `n` items with one decoder, stopping at the first error;
* `runFields` reads optional fields one after another, each turn looking at
  the input's next tag, until the input ends or a turn declines to read (an
  unknown tag, which a forward-compatible format skips with the rest). The
  fuel bounds the turns; callers pass the input's length, since every turn
  reads a tag.

Inputs are lists of any symbol type; the state of the field loop is
arbitrary.

Results:
* `decodeN_flatMap`: `decodeN` reads back `n` encodings laid end to end.
* `runFields_flatMap`: when a turn reads back one encoded field, the loop
  reads back a whole list of them and ends in the state that reading the
  fields in order gives.
* `runFields_flatMap_length`: the same with the fuel callers give.
* `foldl_ite_singleton`: a field an encoder leaves out changes nothing,
  when reading it would set only what the state already holds.
-/
namespace Decoding

variable {β σ ε α : Type}

/-- Read `n` items one after another with `dec`, stopping at the first error. -/
def decodeN (dec : List β → Except ε (α × List β)) : Nat → List β → Except ε (List α × List β)
  | 0, b => .ok ([], b)
  | n + 1, b =>
    match dec b with
    | .ok (x, b) =>
      match decodeN dec n b with
      | .ok (xs, b) => .ok (x :: xs, b)
      | .error e => .error e
    | .error e => .error e

theorem decodeN_flatMap (dec : List β → Except ε (α × List β)) (enc : α → List β) (xs : List α)
    (hdec : ∀ x ∈ xs, ∀ rest, dec (enc x ++ rest) = .ok (x, rest)) (rest : List β) :
    decodeN dec xs.length (xs.flatMap enc ++ rest) = .ok (xs, rest) := by
  induction xs with
  | nil => rfl
  | cons x xs ih =>
    have hx := hdec x List.mem_cons_self (xs.flatMap enc ++ rest)
    have hxs := ih (fun y hy => hdec y (List.mem_cons_of_mem x hy))
    simp only [List.length_cons, List.flatMap_cons, List.append_assoc, decodeN, hx, hxs]

/-- The field loop. A turn gets the whole remaining input, tag first, and
returns `none` to stop (an unknown tag), an error, or the input after the
field with the new state. -/
def runFields (turn : List β → σ → Option (Except ε (List β × σ))) :
    Nat → List β → σ → Except ε σ
  | 0, _, st => .ok st
  | _, [], st => .ok st
  | fuel + 1, b :: bs, st =>
    match turn (b :: bs) st with
    | none => .ok st
    | some (.error e) => .error e
    | some (.ok (rest, st)) => runFields turn fuel rest st

@[simp]
theorem runFields_nil (turn : List β → σ → Option (Except ε (List β × σ))) (k : Nat) (st : σ) :
    runFields turn k [] st = .ok st := by
  cases k <;> rfl

section Reads

/-! A format's encoder `enc` for fields, with `read` the effect of reading one on
the state: `hturn` says one turn reads one encoded field back, whatever follows
it, for the fields satisfying `P` (those whose lengths fit the format). -/

variable (turn : List β → σ → Option (Except ε (List β × σ))) (enc : α → List β)
  (read : σ → α → σ) (P : α → Prop)
  (henc : ∀ x, enc x ≠ [])
  (hturn : ∀ x, P x → ∀ rest st, turn (enc x ++ rest) st = some (.ok (rest, read st x)))
include henc hturn

theorem runFields_enc (x : α) (hx : P x) (k : Nat) (rest : List β) (st : σ) :
    runFields turn (k + 1) (enc x ++ rest) st = runFields turn k rest (read st x) := by
  obtain ⟨b, bs, hb⟩ := List.exists_cons_of_ne_nil (henc x)
  have h := hturn x hx rest st
  rw [hb, List.cons_append] at h ⊢
  simp only [runFields, h]

theorem runFields_flatMap (fs : List α) (hfs : ∀ x ∈ fs, P x) (k : Nat) (rest : List β) (st : σ) :
    runFields turn (k + fs.length) (fs.flatMap enc ++ rest) st =
      runFields turn k rest (fs.foldl read st) := by
  induction fs generalizing st with
  | nil => rfl
  | cons x fs ih =>
    have hx : P x := hfs x List.mem_cons_self
    have hrest : ∀ y ∈ fs, P y := fun y hy => hfs y (List.mem_cons_of_mem x hy)
    rw [List.length_cons, ← Nat.add_assoc, List.flatMap_cons, List.append_assoc,
      runFields_enc turn enc read P henc hturn x hx, ih hrest]
    rfl

omit hturn in
/-- Each field takes at least one symbol. -/
theorem length_le_length_flatMap (fs : List α) : fs.length ≤ (fs.flatMap enc).length := by
  induction fs with
  | nil => simp
  | cons x fs ih =>
    have hx : 0 < (enc x).length := List.length_pos_iff.mpr (henc x)
    simp only [List.length_cons, List.flatMap_cons, List.length_append]
    omega

theorem runFields_flatMap_length (fs : List α) (hfs : ∀ x ∈ fs, P x) (st : σ) :
    runFields turn (fs.flatMap enc).length (fs.flatMap enc) st = .ok (fs.foldl read st) := by
  obtain ⟨k, hk⟩ := Nat.exists_eq_add_of_le' (length_le_length_flatMap enc henc fs)
  have h := runFields_flatMap turn enc read P henc hturn fs hfs k [] st
  rw [List.append_nil, ← hk, runFields_nil] at h
  exact h

end Reads

theorem foldl_ite_singleton {c : Prop} [Decidable c] {f : σ → α → σ} {x : α} {st : σ}
    (h : ¬c → f st x = st) : (if c then [x] else []).foldl f st = f st x := by
  split
  · rfl
  · exact (h ‹_›).symm

end Decoding
