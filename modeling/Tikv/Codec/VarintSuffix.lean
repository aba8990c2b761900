import Tikv.Codec.Number
/-!
# Varint decoders and the bytes after the varint

Both varint decoders choose their branch by the whole buffer, not by the
varint at its front. `NumberCodec::try_decode_var_u64` takes its fast path
when ten bytes or more are left, and its slow path otherwise;
`decode_var_u64` takes its nine-byte loop when ten bytes are left or the
buffer ends in a terminating byte, and its plain loop otherwise. So one
varint is read by different loops depending on what follows it.

Results:
* `decodeVarU64Loop_found_append`, `decodeVarU64Loop_exhausted_append`,
  `tryDecodeVarU64Slow_append`: each byte loop reads the same with bytes
  appended, once it has stopped at a terminating byte or run out of
  iterations before its bytes ran out.
* `decodeVarU64Loop_of_tryDecodeVarU64Slow`: the slow path of
  `try_decode_var_u64` reads what the loop of its fast path reads.
* `tryDecodeVarU64_append`, `decodeVarU64_append`: a varint that a decoder
  accepts decodes to the same value and length with any bytes after it.
-/
namespace Tikv.Codec

/-! ## The byte loops read only up to the terminating byte -/

section Loop

variable {bs s : Bytes} {i k : Nat} {res r : UInt64} {n : Nat}

/-- A loop that found a terminating byte read at least one byte and at most its iterations
and its bytes. -/
theorem decodeVarU64Loop_found_bounds (h : decodeVarU64Loop bs i res k = .found r n) :
    i < n ∧ n ≤ i + k ∧ n ≤ i + bs.length := by
  induction bs generalizing i res k with
  | nil => cases h
  | cons b bs ih =>
    cases k with
    | zero => cases h
    | succ k =>
      simp only [decodeVarU64Loop] at h
      split at h
      · cases h
        simp
      · have := ih h
        simp only [List.length_cons]
        omega

/-- Bytes after the terminating byte, and iterations beyond it, change nothing. -/
theorem decodeVarU64Loop_found_append (h : decodeVarU64Loop bs i res k = .found r n) {k' : Nat}
    (hk : n ≤ i + k') : decodeVarU64Loop (bs ++ s) i res k' = .found r n := by
  induction bs generalizing i res k k' with
  | nil => cases h
  | cons b bs ih =>
    cases k with
    | zero => cases h
    | succ k =>
      have hpos := (decodeVarU64Loop_found_bounds h).1
      obtain ⟨k', rfl⟩ : ∃ k'', k' = k'' + 1 := ⟨k' - 1, by omega⟩
      simp only [decodeVarU64Loop] at h
      simp only [List.cons_append, decodeVarU64Loop]
      split at h
      · rw [if_pos ‹_›]
        exact h
      · rw [if_neg ‹_›]
        exact ih h (by omega)

theorem decodeVarU64Loop_found_iter (h : decodeVarU64Loop bs i res k = .found r n) {k' : Nat}
    (hk : n ≤ i + k') : decodeVarU64Loop bs i res k' = .found r n := by
  simpa using decodeVarU64Loop_found_append (s := []) h hk

/-- A loop that ran out of iterations before its bytes ran out reads the same with bytes after. -/
theorem decodeVarU64Loop_exhausted_append (h : decodeVarU64Loop bs i res k = .exhausted r)
    (hk : k ≤ bs.length) : decodeVarU64Loop (bs ++ s) i res k = .exhausted r := by
  induction bs generalizing i res k with
  | nil =>
    obtain rfl : k = 0 := by simpa using hk
    cases s with
    | nil => exact h
    | cons c s => exact h
  | cons b bs ih =>
    cases k with
    | zero => exact h
    | succ k =>
      simp only [decodeVarU64Loop] at h
      simp only [List.cons_append, decodeVarU64Loop]
      split at h
      · cases h
      · rw [if_neg ‹_›]
        exact ih h (by simpa using hk)

/-- A loop with an iteration for every byte runs out only on continuation bytes. -/
theorem decodeVarU64Loop_exhausted_ge (h : decodeVarU64Loop bs i res k = .exhausted r)
    (hk : bs.length ≤ k) : ∀ b ∈ bs, ¬ b < 0x80 := by
  induction bs generalizing i res k with
  | nil => simp
  | cons b bs ih =>
    cases k with
    | zero => simp at hk
    | succ k =>
      simp only [decodeVarU64Loop] at h
      split at h
      · cases h
      · intro c hc
        rcases List.mem_cons.mp hc with rfl | hc
        · assumption
        · exact ih h (by simpa using hk) c hc

end Loop

section Slow

variable {bs s : Bytes} {shift val : UInt64} {i n : Nat} {r : UInt64 × Nat}

theorem tryDecodeVarU64Slow_append (h : tryDecodeVarU64Slow bs shift val n = some r) :
    tryDecodeVarU64Slow (bs ++ s) shift val n = some r := by
  induction bs generalizing shift val n with
  | nil => cases h
  | cons b bs ih =>
    simp only [tryDecodeVarU64Slow] at h
    simp only [List.cons_append, tryDecodeVarU64Slow]
    split at h
    · rw [if_pos ‹_›]
      exact ih h
    · rw [if_neg ‹_›]
      exact h

/-- The slow path reads what the loop of the fast path reads, with iterations for its bytes. -/
theorem decodeVarU64Loop_of_tryDecodeVarU64Slow {v : UInt64} {m : Nat}
    (h : tryDecodeVarU64Slow bs (UInt64.ofNat (i * 7)) val i = some (v, m)) {k : Nat}
    (hk : bs.length ≤ k) : decodeVarU64Loop (bs ++ s) i val k = .found v m := by
  induction bs generalizing i val k with
  | nil => cases h
  | cons b bs ih =>
    obtain ⟨k, rfl⟩ : ∃ k', k = k' + 1 := ⟨k - 1, by simp at hk; omega⟩
    simp only [tryDecodeVarU64Slow] at h
    simp only [List.cons_append, decodeVarU64Loop]
    split at h
    · -- a continuation byte: masked the same way, at the next shift
      have hshift : UInt64.ofNat (i * 7) + 7 = UInt64.ofNat ((i + 1) * 7) := by
        rw [show (7 : UInt64) = UInt64.ofNat 7 from rfl, ← UInt64.ofNat_add, Nat.succ_mul]
      rw [UInt8.toUInt64_and, hshift, show UInt8.toUInt64 0x7f = 0x7f from rfl] at h
      rw [if_neg (UInt8.not_lt.mpr ‹_›)]
      exact ih h (by simpa using hk)
    · -- the terminating byte: below `0x80`, so the mask keeps it whole
      have hlt : b < 0x80 := UInt8.not_le.mp ‹_›
      have hmask : b.toUInt64 &&& 0x7f = b.toUInt64 := by
        apply UInt64.toNat_inj.mp
        rw [mask7f, UInt8.toNat_toUInt64]
        exact Nat.mod_eq_of_lt (UInt8.lt_iff_toNat_lt.mp hlt)
      rw [if_pos hlt, hmask]
      cases h
      rfl

end Slow

/-! ## The decoders -/

theorem tryDecodeVarU64_append {b s : Bytes} {v : UInt64} {n : Nat} (h : tryDecodeVarU64 b = .ok (v, n)) :
    tryDecodeVarU64 (b ++ s) = .ok (v, n) := by
  unfold tryDecodeVarU64 at h ⊢
  have hlen : (b ++ s).length = b.length + s.length := List.length_append
  by_cases hb : b.length ≥ 10
  · -- the fast path on both buffers, over the same first ten bytes
    rw [if_pos hb] at h
    rw [if_pos (by omega)]
    split at h
    · rename_i val m hf
      rw [decodeVarU64Loop_found_append hf (decodeVarU64Loop_found_bounds hf).2.1]
      exact h
    · rename_i val hex
      rw [decodeVarU64Loop_exhausted_append hex (by omega), List.getD_append _ _ _ _ (by omega)]
      exact h
  · rw [if_neg hb] at h
    split at h
    · rename_i r hslow
      cases h
      by_cases hbs : (b ++ s).length ≥ 10
      · rw [if_pos hbs, decodeVarU64Loop_of_tryDecodeVarU64Slow (i := 0) hslow (by omega)]
      · rw [if_neg hbs, tryDecodeVarU64Slow_append hslow]
    · cases h

/-- A loop that found the terminating byte within nine bytes decides `decode_var_u64`, whichever
of its two loops the buffer selects. -/
theorem decodeVarU64_of_found {data bs : Bytes} {b0 : UInt8} (hd : data = b0 :: bs) (h0 : ¬ b0 < 0x80)
    {k : Nat} {res : UInt64} {m : Nat} (hf : decodeVarU64Loop data 0 0 k = .found res m) (hm : m ≤ 9) :
    decodeVarU64 data = .ok (res, data.drop m) := by
  have hb := decodeVarU64Loop_found_bounds hf
  rw [decodeVarU64_of_ge data bs b0 hd h0]
  by_cases hc : 10 ≤ data.length ∨ data.getLast (by simp [hd]) < 0x80
  · rw [if_pos hc, decodeVarU64Loop_found_iter hf (by omega)]
  · rw [if_neg hc, decodeVarU64Loop_found_iter hf (by omega)]

theorem decodeVarU64_append {b s rest : Bytes} {v : UInt64} (h : decodeVarU64 b = .ok (v, rest)) :
    decodeVarU64 (b ++ s) = .ok (v, rest ++ s) := by
  cases b with
  | nil => cases h
  | cons b0 bs =>
    by_cases h0 : b0 < 0x80
    · simp only [decodeVarU64, if_pos h0, Except.ok.injEq, Prod.mk.injEq] at h
      obtain ⟨rfl, rfl⟩ := h
      simp only [List.cons_append, decodeVarU64, if_pos h0]
    · rw [decodeVarU64_of_ge _ bs b0 rfl h0] at h
      by_cases hc : 10 ≤ (b0 :: bs).length ∨ (b0 :: bs).getLast (List.cons_ne_nil _ _) < 0x80
      · rw [if_pos hc] at h
        split at h
        · rename_i res m hf
          cases h
          have hb := decodeVarU64Loop_found_bounds hf
          rw [@decodeVarU64_of_found (b0 :: bs ++ s) (bs ++ s) b0 (List.cons_append ..) h0 _ _ _
            (decodeVarU64Loop_found_append hf hb.2.1) (by omega), List.drop_append_of_le_length (by omega)]
        · rename_i res hex
          -- nine continuation bytes: a buffer that ends in a terminating byte is longer
          have hlen : 10 ≤ (b0 :: bs).length := by
            rcases hc with hc | hc
            · exact hc
            · by_contra hlt
              exact decodeVarU64Loop_exhausted_ge hex (by omega) _ (List.getLast_mem _) hc
          by_cases h9 : (b0 :: bs).getD 9 0 ≤ 1
          · rw [if_pos h9] at h
            cases h
            rw [decodeVarU64_of_ge (b0 :: bs ++ s) (bs ++ s) b0 (List.cons_append ..) h0,
              if_pos (Or.inl (by simp only [List.length_append]; omega)),
              decodeVarU64Loop_exhausted_append hex (by omega), List.getD_append _ _ _ _ (by omega)]
            simp only [if_pos h9, List.drop_append_of_le_length hlen]
          · rw [if_neg h9] at h
            cases h
      · rw [if_neg hc] at h
        split at h
        · rename_i res m hf
          cases h
          have hb := decodeVarU64Loop_found_bounds hf
          rw [@decodeVarU64_of_found (b0 :: bs ++ s) (bs ++ s) b0 (List.cons_append ..) h0 _ _ _
            (decodeVarU64Loop_found_append hf hb.2.1) (by omega), List.drop_append_of_le_length (by omega)]
        · cases h

/-- Neither varint decoder reads past the varint it accepts: bytes after it change neither the
value nor the number of bytes read, whichever branch the longer buffer selects. -/
theorem varint_decoders_ignore_suffix :
    (∀ (b s : Bytes) (v : UInt64) (n : Nat),
      tryDecodeVarU64 b = .ok (v, n) → tryDecodeVarU64 (b ++ s) = .ok (v, n)) ∧
    (∀ (b s rest : Bytes) (v : UInt64),
      decodeVarU64 b = .ok (v, rest) → decodeVarU64 (b ++ s) = .ok (v, rest ++ s)) :=
  ⟨fun _ _ _ _ h => tryDecodeVarU64_append h, fun _ _ _ _ h => decodeVarU64_append h⟩

/-- `150` read by the slow path of `try_decode_var_u64` and again by its fast path after eight more
bytes, and by the nine-byte loop of `decode_var_u64` and again by its plain loop after a
continuation byte. -/
theorem varint_decoders_ignore_suffix_150 :
    tryDecodeVarU64 ([0x96, 0x01] ++ [0x80, 0x80, 0x80, 0x80, 0x80, 0x80, 0x80, 0x80]) = .ok (150, 2) ∧
      decodeVarU64 ([0x96, 0x01] ++ [0x80]) = .ok (150, [] ++ [0x80]) :=
  ⟨varint_decoders_ignore_suffix.1 _ _ _ _ rfl, varint_decoders_ignore_suffix.2 _ _ _ _ rfl⟩

end Tikv.Codec
