import Tikv.Codec.Number

/-!
# Compact byte strings (`tikv_util::codec::bytes`, `codec::byte`)

`encode_compact_bytes` writes the length as a zig-zag varint (`data.len() as
i64`) followed by the bytes; `decode_compact_bytes` reads the varint back,
casts it to `usize` and takes that many bytes, or reports an unexpected end.
The `codec` crate's `read_compact_bytes` does the same with its own varint
decoder, and `CompactByteCodec::get_first_encoded_len` measures the first
compact string of a buffer without copying it.

Results:
* `decodeCompactBytes_encodeCompactBytes`: every byte string whose length
  fits a `usize` comes back, with any bytes after it left unread.
* `CompactByteCodec.getFirstEncodedLen_of_readCompactBytes`: wherever
  `read_compact_bytes` succeeds, the length scanner gives the number of bytes
  it read.
-/
namespace Tikv.Codec

/-- mirrors components/tikv_util/src/codec/bytes.rs:60-63 (`encode_compact_bytes`) -/
def encodeCompactBytes (data : Bytes) : Bytes :=
  encodeVarI64 (Int64.ofNat data.length) ++ data

/-- mirrors components/tikv_util/src/codec/bytes.rs:164-172 (`decode_compact_bytes`) -/
def decodeCompactBytes (data : Bytes) : Except Error (Bytes × Bytes) :=
  match decodeVarI64 data with
  | .ok (n, rest) =>
    -- `as usize` reinterprets the `i64`: a negative length becomes huge and fails the check
    let vn := n.toUInt64.toNat
    if rest.length ≥ vn then .ok (rest.take vn, rest.drop vn) else .error .eof
  | .error e => .error e

theorem decodeCompactBytes_encodeCompactBytes (data rest : Bytes) (h : data.length < 2 ^ 64) :
    decodeCompactBytes (encodeCompactBytes data ++ rest) = .ok (data, rest) := by
  have hn : (Int64.ofNat data.length).toUInt64.toNat = data.length := by
    rw [Int64.toUInt64_ofNat', ofNat_toNat_of_lt h]
  rw [encodeCompactBytes, List.append_assoc, decodeCompactBytes, decodeVarI64_encodeVarI64]
  simp only [hn, List.length_append, if_pos (Nat.le_add_right _ _), List.take_left, List.drop_left]

/-- mirrors components/codec/src/byte.rs:538-550 (`read_compact_bytes` for a
`NumberDecoder`): the bytes, and the buffer after them. -/
def readCompactBytes (buf : Bytes) : Except Error (Bytes × Bytes) :=
  match tryDecodeVarI64 buf with
  | .ok (v, n) =>
    let vn := v.toUInt64.toNat
    let data := buf.drop n
    if data.length < vn then .error .eof else .ok (data.take vn, data.drop vn)
  | .error e => .error e

/-- mirrors components/codec/src/byte.rs:499-511 (`CompactByteCodec::get_first_encoded_len`);
`value as usize + decoded_n` is a `usize` sum. -/
def CompactByteCodec.getFirstEncodedLen (encoded : Bytes) : Nat :=
  match tryDecodeVarI64 encoded with
  | .error _ => encoded.length
  | .ok (value, decodedN) => min ((value.toUInt64.toNat + decodedN) % 2 ^ 64) encoded.length

theorem tryDecodeVarI64_le_length {buf : Bytes} {v : Int64} {n : Nat}
    (h : tryDecodeVarI64 buf = .ok (v, n)) : n ≤ buf.length := by
  unfold tryDecodeVarI64 at h
  split at h
  · rename_i uv m hu
    cases h
    exact tryDecodeVarU64_le_length hu
  · cases h

/-- On a buffer a slice can be (shorter than `2^64`), the scanner measures
what `read_compact_bytes` reads. -/
theorem CompactByteCodec.getFirstEncodedLen_of_readCompactBytes {buf bs rest : Bytes}
    (hlen : buf.length < 2 ^ 64) (h : readCompactBytes buf = .ok (bs, rest)) :
    CompactByteCodec.getFirstEncodedLen buf = buf.length - rest.length := by
  unfold readCompactBytes at h
  cases hd : tryDecodeVarI64 buf with
  | error e =>
    rw [hd] at h
    cases h
  | ok r =>
    obtain ⟨v, n⟩ := r
    rw [hd] at h
    have hn := tryDecodeVarI64_le_length hd
    simp only at h
    split at h
    · cases h
    · rename_i hfit
      simp only [Except.ok.injEq, Prod.mk.injEq] at h
      obtain ⟨-, rfl⟩ := h
      simp only [List.length_drop] at hfit ⊢
      rw [CompactByteCodec.getFirstEncodedLen, hd]
      simp only
      rw [Nat.mod_eq_of_lt (by omega)]
      omega

end Tikv.Codec
