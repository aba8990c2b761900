import Tikv.Codec.MemComparable
import Tikv.Codec.Bytes

/-!
# The memcomparable codec of the `codec` crate (`codec::byte`)

`MemComparableByteCodec` writes the same format as `tikv_util`'s
`encode_bytes`: `encode_all` copies the whole groups with the marker `!0`,
then the rest padded with zeros and the marker `!pad`; the descending form
complements the bytes written.

Its decoders share one loop, `try_decode_first_internal`, over raw pointers:
each turn copies eight bytes to `dest`, reads the marker after them, and
stops at the first marker that announces padding, after comparing the
padding with `T::PADDING`. It returns the bytes read and written.
`try_decode_first_in_place` runs the same loop with `dest == src`, where every
copy moves a group down over the marker before it (`ptr::copy` is memmove);
the descending variants complement the written bytes afterwards.
`encode_all_in_place` encodes within the input's own buffer, from the last
group back, so that no group is overwritten before it is copied.

Results:
* `encodeAll_eq`, `encodeAllDesc_eq`: `encode_all` writes what
  `encode_bytes` writes.
* `encodeAllInPlace_eq`: encoding in place leaves the encoding at the front
  of the buffer and the bytes past it as they were; the proof carries an
  invariant (`InPlaceInv`) over the groups written so far.
* `memcomparable_encoders_agree`: the three encoders and the two size
  functions agree.
* `tryDecodeFirstInternal_eq`: the loop computes what `decode_bytes` does,
  counting the bytes it read and wrote.
* `tryDecodeFirstInPlaceGo_eq`: run in place, it returns what it returns with
  a buffer of its own, and leaves the key at the front of the buffer.
* `encodedLen_scanners_agree`: each function that scans for the length of
  the first value, of this codec, of `tikv_util`'s and of the varint and
  compact-bytes codecs, stops where its decoder does.
-/
namespace Tikv.Codec.MemComparableByteCodec
open Tikv.Codec

/-- `MEMCMP_GROUP_SIZE` -/
def MEMCMP_GROUP_SIZE : Nat := 8

/-- `MEMCMP_PAD_BYTE` -/
def MEMCMP_PAD_BYTE : UInt8 := 0

/-- mirrors components/codec/src/byte.rs:19-22 (`encoded_len`) -/
def encodedLen (srcLen : Nat) : Nat :=
  (srcLen / MEMCMP_GROUP_SIZE + 1) * (MEMCMP_GROUP_SIZE + 1)

/-- The first loop of `encode_all` (components/codec/src/byte.rs:80-89): `k`
whole groups, each followed by the marker `!0`. -/
def encodeAllGroups : Nat → Bytes → Bytes
  | 0, _ => []
  | k + 1, src => src.take MEMCMP_GROUP_SIZE ++ [~~~0] ++ encodeAllGroups k (src.drop MEMCMP_GROUP_SIZE)

/-- mirrors components/codec/src/byte.rs:67-101 (`encode_all`), returning the
bytes written to `dest`. -/
def encodeAll (src : Bytes) : Bytes :=
  let zeroPaddingGroups := src.length / MEMCMP_GROUP_SIZE
  let remaining := src.drop (MEMCMP_GROUP_SIZE * zeroPaddingGroups)
  let paddingSize := MEMCMP_GROUP_SIZE - remaining.length
  encodeAllGroups zeroPaddingGroups src ++ remaining ++
    List.replicate paddingSize MEMCMP_PAD_BYTE ++ [~~~paddingSize.toUInt8]

/-- mirrors components/codec/src/byte.rs:157-163 (`flip_bytes_in_place`) -/
def flipBytesInPlace (src : Bytes) (len : Nat) : Bytes :=
  (src.take len).map (~~~ ·) ++ src.drop len

/-- mirrors components/codec/src/byte.rs:178-182 (`encode_all_desc`) -/
def encodeAllDesc (src : Bytes) : Bytes :=
  let encoded := encodeAll src
  flipBytesInPlace encoded encoded.length

/-- `ptr::write_bytes(dst, byte, n)` within one buffer. -/
def writeBytes (buf : Bytes) (dst : Nat) (byte : UInt8) (n : Nat) : Bytes :=
  buf.mapIdx fun j b => if dst ≤ j ∧ j < dst + n then byte else b

/-- The backward loop of `encode_all_in_place` (components/codec/src/byte.rs:138-145):
`k` groups, from the last down, each marker written before its group is
moved into place with `ptr::copy`. -/
def encodeAllInPlaceGroups : Nat → Bytes → Nat → Nat → Bytes
  | 0, buf, _, _ => buf
  | k + 1, buf, srcPtr, destPtr =>
    let destPtr := destPtr - 1
    let buf := buf.set destPtr (~~~0)
    let srcPtr := srcPtr - MEMCMP_GROUP_SIZE
    let destPtr := destPtr - MEMCMP_GROUP_SIZE
    encodeAllInPlaceGroups k (copyWithin buf srcPtr destPtr MEMCMP_GROUP_SIZE) srcPtr destPtr

/-- mirrors components/codec/src/byte.rs:112-149 (`encode_all_in_place`): the
buffer and the number of bytes encoded; `none` is the assertion
`src.len() >= dest_len` failing. The last group is written first, then the
others backward, so that no byte is overwritten before it is copied. -/
def encodeAllInPlace (src : Bytes) (len : Nat) : Option (Bytes × Nat) :=
  let srcLen := len
  let destLen := encodedLen srcLen
  if src.length < destLen then none
  else
    let zeroPaddingGroups := srcLen / MEMCMP_GROUP_SIZE
    let lastGroupSize := srcLen - MEMCMP_GROUP_SIZE * zeroPaddingGroups
    let paddingSize := MEMCMP_GROUP_SIZE - lastGroupSize
    let paddingMarker := ~~~paddingSize.toUInt8
    let srcPtr := srcLen - lastGroupSize
    let destPtr := destLen - (MEMCMP_GROUP_SIZE + 1)
    let buf := copyWithin src srcPtr destPtr lastGroupSize
    let buf := writeBytes buf (destPtr + lastGroupSize) MEMCMP_PAD_BYTE paddingSize
    let buf := buf.set (destPtr + MEMCMP_GROUP_SIZE) paddingMarker
    some (encodeAllInPlaceGroups zeroPaddingGroups buf srcPtr destPtr, destLen)

/-- mirrors components/codec/src/byte.rs:188-192 (`encode_all_in_place_desc`) -/
def encodeAllInPlaceDesc (src : Bytes) (len : Nat) : Option (Bytes × Nat) :=
  match encodeAllInPlace src len with
  | some (buf, encodedLen) => some (flipBytesInPlace buf encodedLen, encodedLen)
  | none => none

/-- mirrors components/codec/src/byte.rs:413-441 (`MemComparableCodecHelper`):
the expected padding bytes and the padding size a marker announces. -/
structure CodecHelper where
  PADDING : Bytes
  parsePaddingSize : UInt8 → Nat

/-- `Ascending` (components/codec/src/byte.rs:425-432) -/
def Ascending : CodecHelper where
  PADDING := List.replicate MEMCMP_GROUP_SIZE MEMCMP_PAD_BYTE
  parsePaddingSize rawMarker := (~~~rawMarker).toNat

/-- `Descending` (components/codec/src/byte.rs:434-441) -/
def Descending : CodecHelper where
  PADDING := List.replicate MEMCMP_GROUP_SIZE (~~~MEMCMP_PAD_BYTE)
  parsePaddingSize rawMarker := rawMarker.toNat

/-- mirrors components/codec/src/byte.rs:349-411 (`try_decode_first_internal`)
with `dest` apart from `src`: the loop on `src[read..]`, with the bytes copied
to `dest` so far. Returns `(read_bytes, written_bytes)` and `dest`'s bytes. -/
def tryDecodeFirstInternal (T : CodecHelper) (src : Bytes) (read : Nat) (dest : Bytes) :
    Except Error (Nat × Nat × Bytes) :=
  match _h : src.drop MEMCMP_GROUP_SIZE with
  | [] => .error .eof
  | marker :: rest =>
    let dest := dest ++ src.take MEMCMP_GROUP_SIZE
    let paddingSize := T.parsePaddingSize marker
    let read := read + (MEMCMP_GROUP_SIZE + 1)
    if paddingSize > 0 then
      if paddingSize > MEMCMP_GROUP_SIZE then .error .keyPadding
      else if dest.drop (dest.length - paddingSize) ≠ T.PADDING.take paddingSize then
        .error .keyPadding
      else .ok (read, dest.length - paddingSize, dest)
    else tryDecodeFirstInternal T rest read dest
termination_by src.length
decreasing_by
  have hl := congrArg List.length _h
  simp only [List.length_drop, List.length_cons] at hl
  omega

/-- mirrors components/codec/src/byte.rs:349-411 (`try_decode_first_internal`)
with `dest == src`: the loop from the source offset `read` and the
destination offset `written`, on one buffer. Returns
`(read_bytes, written_bytes)` and the buffer. -/
def tryDecodeFirstInPlaceGo (T : CodecHelper) (buffer : Bytes) (read written : Nat) :
    Except Error (Nat × Nat × Bytes) :=
  if read + (MEMCMP_GROUP_SIZE + 1) > buffer.length then .error .eof
  else
    let buffer' := copyWithin buffer read written MEMCMP_GROUP_SIZE
    let paddingSize := T.parsePaddingSize (buffer'.getD (read + MEMCMP_GROUP_SIZE) 0)
    let read' := read + (MEMCMP_GROUP_SIZE + 1)
    let written' := written + MEMCMP_GROUP_SIZE
    if paddingSize > 0 then
      if paddingSize > MEMCMP_GROUP_SIZE then .error .keyPadding
      else if (buffer'.drop (written' - paddingSize)).take paddingSize ≠
          T.PADDING.take paddingSize then .error .keyPadding
      else .ok (read', written' - paddingSize, buffer')
    else tryDecodeFirstInPlaceGo T buffer' read' written'
termination_by buffer.length - read
decreasing_by
  simp only [copyWithin_length, MEMCMP_GROUP_SIZE] at *
  omega

/-- mirrors components/codec/src/byte.rs:227-234 (`try_decode_first`) -/
def tryDecodeFirst (src : Bytes) : Except Error (Nat × Nat × Bytes) :=
  tryDecodeFirstInternal Ascending src 0 []

/-- mirrors components/codec/src/byte.rs:265-274 (`try_decode_first_desc`) -/
def tryDecodeFirstDesc (src : Bytes) : Except Error (Nat × Nat × Bytes) := do
  let (readBytes, writtenBytes, dest) ← tryDecodeFirstInternal Descending src 0 []
  return (readBytes, writtenBytes, flipBytesInPlace dest writtenBytes)

/-- mirrors components/codec/src/byte.rs:295-302 (`try_decode_first_in_place`) -/
def tryDecodeFirstInPlace (buffer : Bytes) : Except Error (Nat × Nat × Bytes) :=
  tryDecodeFirstInPlaceGo Ascending buffer 0 0

/-- mirrors components/codec/src/byte.rs:323-332 (`try_decode_first_in_place_desc`) -/
def tryDecodeFirstInPlaceDesc (buffer : Bytes) : Except Error (Nat × Nat × Bytes) := do
  let (readBytes, writtenBytes, buffer) ← tryDecodeFirstInPlaceGo Descending buffer 0 0
  return (readBytes, writtenBytes, flipBytesInPlace buffer writtenBytes)

/-- mirrors components/codec/src/byte.rs:28-41 (`get_first_encoded_len_internal`),
the loop on `encoded[idx - MEMCMP_GROUP_SIZE..]`: nine bytes for each group up
to the first marker that announces padding, or the whole buffer when it ends
first. -/
def getFirstEncodedLenInternal (T : CodecHelper) (encoded : Bytes) : Nat :=
  match _h : encoded.drop MEMCMP_GROUP_SIZE with
  | [] => encoded.length
  | marker :: rest =>
    if T.parsePaddingSize marker > 0 then MEMCMP_GROUP_SIZE + 1
    else MEMCMP_GROUP_SIZE + 1 + getFirstEncodedLenInternal T rest
termination_by encoded.length
decreasing_by
  have hl := congrArg List.length _h
  simp only [List.length_drop, List.length_cons] at hl
  omega

/-- mirrors components/codec/src/byte.rs:45-47 (`get_first_encoded_len`) -/
def getFirstEncodedLen (encoded : Bytes) : Nat :=
  getFirstEncodedLenInternal Ascending encoded

/-- mirrors components/codec/src/byte.rs:51-53 (`get_first_encoded_len_desc`) -/
def getFirstEncodedLenDesc (encoded : Bytes) : Nat :=
  getFirstEncodedLenInternal Descending encoded

/-! ## The encoder -/

theorem encodeAllGroups_eq (k : Nat) (src : Bytes) (h : MEMCMP_GROUP_SIZE * k ≤ src.length) :
    encodeAllGroups k src ++ encodeBytes (src.drop (MEMCMP_GROUP_SIZE * k)) = encodeBytes src := by
  induction k generalizing src with
  | zero => rfl
  | succ k ih =>
    have hle : ENC_GROUP_SIZE ≤ src.length := by
      simp only [MEMCMP_GROUP_SIZE, ENC_GROUP_SIZE] at h ⊢
      omega
    have hrest := ih (src.drop MEMCMP_GROUP_SIZE) (by
      simp only [List.length_drop, MEMCMP_GROUP_SIZE] at h ⊢
      omega)
    rw [List.drop_drop, show MEMCMP_GROUP_SIZE + MEMCMP_GROUP_SIZE * k =
      MEMCMP_GROUP_SIZE * (k + 1) by rw [Nat.mul_succ, Nat.add_comm]] at hrest
    rw [encodeAllGroups, List.append_assoc, hrest]
    show _ = encodeBytesGo false src
    rw [encodeBytesGo_of_le hle, complement_eq_marker_sub, UInt8.sub_zero]
    rfl

/-- `encode_all` writes what `encode_bytes` writes. -/
theorem encodeAll_eq (src : Bytes) : encodeAll src = encodeBytes src := by
  have hdiv : MEMCMP_GROUP_SIZE * (src.length / MEMCMP_GROUP_SIZE) ≤ src.length :=
    Nat.mul_div_le _ _
  have hrem : (src.drop (MEMCMP_GROUP_SIZE * (src.length / MEMCMP_GROUP_SIZE))).length <
      ENC_GROUP_SIZE := by
    simp only [List.length_drop, MEMCMP_GROUP_SIZE, ENC_GROUP_SIZE]
    omega
  rw [← encodeAllGroups_eq _ src hdiv, encodeBytes, encodeOrderBytes, encodeBytesGo_of_lt hrem,
    encodeAll]
  simp only [adjustBytesOrder_false, encPadding, Bool.false_eq_true, if_false, List.append_assoc,
    complement_eq_marker_sub]
  rfl

theorem encodeAllDesc_eq (src : Bytes) : encodeAllDesc src = encodeBytesDesc src := by
  rw [encodeAllDesc, flipBytesInPlace, List.take_length, List.drop_length, List.append_nil,
    encodeAll_eq, encodeBytesDesc, encodeOrderBytes, encodeBytesGo_true]
  rfl

/-! ## Encoding in place -/

@[simp]
theorem writeBytes_length (buf : Bytes) (dst : Nat) (byte : UInt8) (n : Nat) :
    (writeBytes buf dst byte n).length = buf.length := by
  simp [writeBytes]

theorem getElem?_writeBytes (buf : Bytes) (dst : Nat) (byte : UInt8) (n p : Nat) :
    (writeBytes buf dst byte n)[p]? = if dst ≤ p ∧ p < dst + n ∧ p < buf.length then some byte else buf[p]? := by
  simp only [writeBytes, List.getElem?_mapIdx]
  by_cases hp : p < buf.length
  · rw [List.getElem?_eq_getElem hp]
    simp only [Option.map_some, hp, and_true]
    split <;> rfl
  · rw [List.getElem?_eq_none (by omega)]
    simp [hp]

/-- The groups of `encode_all`, byte by byte. -/
theorem getElem?_encodeAllGroups :
    ∀ (k : Nat) (src : Bytes), MEMCMP_GROUP_SIZE * k ≤ src.length →
      ∀ i r, i < k → r < MEMCMP_GROUP_SIZE + 1 →
        (encodeAllGroups k src)[(MEMCMP_GROUP_SIZE + 1) * i + r]? =
          if r < MEMCMP_GROUP_SIZE then src[MEMCMP_GROUP_SIZE * i + r]? else some (~~~0) := by
  intro k
  induction k with
  | zero => intro _ _ i _ hi; omega
  | succ k ih =>
    intro src hsrc i r hi hr
    rw [encodeAllGroups, List.append_assoc]
    simp only [MEMCMP_GROUP_SIZE] at *
    have htake : (src.take 8).length = 8 := by simp only [List.length_take]; omega
    cases i with
    | zero =>
      simp only [Nat.mul_zero, Nat.zero_add]
      split
      · rw [List.getElem?_append_left (by omega), List.getElem?_take_of_lt (by omega)]
      · rename_i hr8
        rw [List.getElem?_append_right (by omega), htake, List.getElem?_append_left (by simp; omega),
          show r - 8 = 0 by omega]
        rfl
    | succ i =>
      have hrest := ih (src.drop 8) (by simp only [List.length_drop]; omega) i r (by omega) hr
      rw [List.getElem?_append_right (by omega), htake, List.getElem?_append_right (by simp; omega)]
      simp only [List.length_singleton]
      rw [show (8 + 1) * (i + 1) + r - 8 - 1 = (8 + 1) * i + r by omega, hrest, List.getElem?_drop,
        show 8 + (8 * i + r) = 8 * (i + 1) + r by omega]

theorem encodeAllGroups_length :
    ∀ (k : Nat) (src : Bytes), MEMCMP_GROUP_SIZE * k ≤ src.length →
      (encodeAllGroups k src).length = (MEMCMP_GROUP_SIZE + 1) * k := by
  intro k
  induction k with
  | zero => intro _ _; rfl
  | succ k ih =>
    intro src hsrc
    rw [encodeAllGroups, List.length_append, List.length_append,
      ih _ (by simp only [List.length_drop, MEMCMP_GROUP_SIZE] at hsrc ⊢; omega)]
    simp only [List.length_take, List.length_singleton, MEMCMP_GROUP_SIZE] at hsrc ⊢
    omega

/-- What `encode_all_in_place` has written when `j` groups are left to move:
the bytes before those groups' bytes are the input's, the bytes from group
`j` of the encoding to its end are the encoding's, and the bytes past the
encoding are untouched. -/
structure InPlaceInv (src enc buf : Bytes) (j : Nat) : Prop where
  length : buf.length = src.length
  input : ∀ p, p < MEMCMP_GROUP_SIZE * j → buf[p]? = src[p]?
  written : ∀ p, (MEMCMP_GROUP_SIZE + 1) * j ≤ p → p < enc.length → buf[p]? = enc[p]?
  rest : ∀ p, enc.length ≤ p → buf[p]? = src[p]?

/-- One turn of the backward loop: group `j` moves up over its old place,
after its marker. -/
theorem InPlaceInv.step {src enc buf : Bytes} {j : Nat} (hinv : InPlaceInv src enc buf (j + 1))
    (hgroup : ∀ r, r < MEMCMP_GROUP_SIZE →
      enc[(MEMCMP_GROUP_SIZE + 1) * j + r]? = src[MEMCMP_GROUP_SIZE * j + r]?)
    (hmarker : enc[(MEMCMP_GROUP_SIZE + 1) * j + MEMCMP_GROUP_SIZE]? = some (~~~0))
    (henc : enc.length ≤ src.length) (hj : (MEMCMP_GROUP_SIZE + 1) * (j + 1) ≤ enc.length) :
    InPlaceInv src enc
      (copyWithin (buf.set ((MEMCMP_GROUP_SIZE + 1) * j + MEMCMP_GROUP_SIZE) (~~~0))
        (MEMCMP_GROUP_SIZE * j) ((MEMCMP_GROUP_SIZE + 1) * j) MEMCMP_GROUP_SIZE) j := by
  obtain ⟨hlen, hin, hwr, hrest⟩ := hinv
  simp only [MEMCMP_GROUP_SIZE] at *
  have hset : ∀ p, (buf.set (9 * j + 8) (~~~0))[p]? = if p = 9 * j + 8 then some (~~~0) else buf[p]? := by
    intro p
    rw [List.getElem?_set]
    by_cases hp : 9 * j + 8 = p
    · rw [if_pos hp, if_pos (by omega), if_pos hp.symm]
    · rw [if_neg hp, if_neg (Ne.symm hp)]
  have hcopy := @getElem?_copyWithin (buf.set (9 * j + 8) (~~~0)) (8 * j) (9 * j) 8
    (by simp; omega) (by simp; omega)
  refine ⟨by simp [copyWithin_length, hlen], ?_, ?_, ?_⟩
  · -- below the group still to move: untouched
    intro p hp
    simp only [MEMCMP_GROUP_SIZE] at hp
    rw [hcopy, if_neg (by omega), hset, if_neg (by omega)]
    exact hin p (by omega)
  · intro p hp hpe
    simp only [MEMCMP_GROUP_SIZE] at hp
    rw [hcopy]
    by_cases hg : 9 * j ≤ p ∧ p < 9 * j + 8
    · -- the group's bytes, copied from the input below it
      rw [if_pos hg, hset, if_neg (by omega), hin _ (by omega), ← hgroup (p - 9 * j) (by omega)]
      congr 1
      omega
    · rw [if_neg hg, hset]
      by_cases hm : p = 9 * j + 8
      · -- the marker
        rw [if_pos hm, hm, hmarker]
      · rw [if_neg hm]
        exact hwr p (by omega) hpe
  · intro p hp
    rw [hcopy, if_neg (by omega), hset, if_neg (by omega)]
    exact hrest p hp

/-- The backward loop keeps the invariant down to group 0. -/
theorem encodeAllInPlaceGroups_inv {src enc : Bytes} (henc : enc.length ≤ src.length) :
    ∀ k, (MEMCMP_GROUP_SIZE + 1) * k ≤ enc.length →
      (∀ j r, j < k → r < MEMCMP_GROUP_SIZE →
        enc[(MEMCMP_GROUP_SIZE + 1) * j + r]? = src[MEMCMP_GROUP_SIZE * j + r]?) →
      (∀ j, j < k → enc[(MEMCMP_GROUP_SIZE + 1) * j + MEMCMP_GROUP_SIZE]? = some (~~~0)) →
      ∀ buf, InPlaceInv src enc buf k →
        InPlaceInv src enc
          (encodeAllInPlaceGroups k buf (MEMCMP_GROUP_SIZE * k) ((MEMCMP_GROUP_SIZE + 1) * k)) 0 := by
  intro k
  induction k with
  | zero => intro _ _ _ buf hinv; exact hinv
  | succ k ih =>
    intro hk hgroups hmarkers buf hinv
    have hstep := hinv.step (hgroups k · (by omega)) (hmarkers k (by omega)) henc hk
    have hptr : (MEMCMP_GROUP_SIZE + 1) * (k + 1) - 1 = (MEMCMP_GROUP_SIZE + 1) * k + MEMCMP_GROUP_SIZE ∧
        MEMCMP_GROUP_SIZE * (k + 1) - MEMCMP_GROUP_SIZE = MEMCMP_GROUP_SIZE * k ∧
        (MEMCMP_GROUP_SIZE + 1) * k + MEMCMP_GROUP_SIZE - MEMCMP_GROUP_SIZE = (MEMCMP_GROUP_SIZE + 1) * k := by
      simp only [MEMCMP_GROUP_SIZE]; omega
    simp only [encodeAllInPlaceGroups]
    rw [hptr.1, hptr.2.1, hptr.2.2]
    exact ih (by omega) (fun j r hj hr => hgroups j r (by omega) hr) (fun j hj => hmarkers j (by omega)) _ hstep

/-- `encode_all` byte by byte: the whole groups, then the last group's bytes,
its padding and its marker. -/
theorem getElem?_encodeAll (x : Bytes) :
    (∀ j r, j < x.length / MEMCMP_GROUP_SIZE → r < MEMCMP_GROUP_SIZE →
      (encodeAll x)[(MEMCMP_GROUP_SIZE + 1) * j + r]? = x[MEMCMP_GROUP_SIZE * j + r]?) ∧
    (∀ j, j < x.length / MEMCMP_GROUP_SIZE →
      (encodeAll x)[(MEMCMP_GROUP_SIZE + 1) * j + MEMCMP_GROUP_SIZE]? = some (~~~0)) ∧
    (∀ r, r < MEMCMP_GROUP_SIZE + 1 →
      (encodeAll x)[(MEMCMP_GROUP_SIZE + 1) * (x.length / MEMCMP_GROUP_SIZE) + r]? =
        if MEMCMP_GROUP_SIZE * (x.length / MEMCMP_GROUP_SIZE) + r < x.length then
          x[MEMCMP_GROUP_SIZE * (x.length / MEMCMP_GROUP_SIZE) + r]?
        else if r < MEMCMP_GROUP_SIZE then some MEMCMP_PAD_BYTE
        else some (~~~(MEMCMP_GROUP_SIZE - (x.length - MEMCMP_GROUP_SIZE * (x.length / MEMCMP_GROUP_SIZE))).toUInt8)) := by
  have hz : MEMCMP_GROUP_SIZE * (x.length / MEMCMP_GROUP_SIZE) ≤ x.length := Nat.mul_div_le _ _
  have hglen := encodeAllGroups_length _ x hz
  have hgroups := getElem?_encodeAllGroups _ x hz
  refine ⟨fun j r hj hr => ?_, fun j hj => ?_, fun r hr => ?_⟩
  · rw [encodeAll, List.append_assoc, List.append_assoc, List.getElem?_append_left (by
      rw [hglen]; simp only [MEMCMP_GROUP_SIZE] at *; omega), hgroups j r hj (by omega), if_pos hr]
  · rw [encodeAll, List.append_assoc, List.append_assoc, List.getElem?_append_left (by
      rw [hglen]; simp only [MEMCMP_GROUP_SIZE] at *; omega), hgroups j _ hj (by omega),
      if_neg (by omega)]
  · rw [encodeAll, List.append_assoc, List.append_assoc, List.getElem?_append_right (by omega), hglen,
      Nat.add_sub_cancel_left]
    simp only [List.length_drop]
    by_cases hin : MEMCMP_GROUP_SIZE * (x.length / MEMCMP_GROUP_SIZE) + r < x.length
    · rw [if_pos hin, List.getElem?_append_left (by simp; omega), List.getElem?_drop]
    · rw [if_neg hin, List.getElem?_append_right (by simp; omega)]
      simp only [List.length_drop]
      by_cases hr8 : r < MEMCMP_GROUP_SIZE
      · rw [if_pos hr8, List.getElem?_append_left (by simp; omega), List.getElem?_replicate,
          if_pos (by omega)]
      · rw [if_neg hr8, List.getElem?_append_right (by simp; omega)]
        simp only [List.length_replicate]
        rw [show r - (x.length - MEMCMP_GROUP_SIZE * (x.length / MEMCMP_GROUP_SIZE)) -
          (MEMCMP_GROUP_SIZE - (x.length - MEMCMP_GROUP_SIZE * (x.length / MEMCMP_GROUP_SIZE))) = 0 by
            simp only [MEMCMP_GROUP_SIZE] at *; omega]
        rfl

theorem encodeAllInPlace_eq {src : Bytes} {len : Nat} (h : encodedLen len ≤ src.length) :
    ∃ buf, encodeAllInPlace src len = some (buf, encodedLen len) ∧ buf.length = src.length ∧
      buf.take (encodedLen len) = encodeBytes (src.take len) ∧
      buf.drop (encodedLen len) = src.drop (encodedLen len) := by
  have hdest : encodedLen len = 9 * (len / 8) + 9 := by simp only [encodedLen, MEMCMP_GROUP_SIZE]; omega
  have hxlen : (src.take len).length = len := by simp; omega
  have hElen : (encodeAll (src.take len)).length = encodedLen len := by
    rw [encodeAll_eq, encodeBytes, encodeOrderBytes, encodeBytesGo_length, hxlen]; rfl
  obtain ⟨hg, hm, hlast⟩ := getElem?_encodeAll (src.take len)
  simp only [hxlen, MEMCMP_GROUP_SIZE, MEMCMP_PAD_BYTE] at hg hm hlast
  rw [hdest] at h hElen ⊢
  -- the buffer after the last group is written
  let z := len / 8
  let lg := len - 8 * z
  have hlg : lg < 8 := by omega
  let buf1 := (writeBytes (copyWithin src (8 * z) (9 * z) lg) (9 * z + lg) 0 (8 - lg)).set
    (9 * z + 8) (~~~(8 - lg).toUInt8)
  have hrun : encodeAllInPlace src len =
      some (encodeAllInPlaceGroups z buf1 (MEMCMP_GROUP_SIZE * z) ((MEMCMP_GROUP_SIZE + 1) * z),
        9 * z + 9) := by
    simp only [encodeAllInPlace, MEMCMP_GROUP_SIZE, MEMCMP_PAD_BYTE, hdest, if_neg (Nat.not_lt.mpr h)]
    rw [show len - lg = 8 * z by omega, show 9 * z + 9 - (8 + 1) = 9 * z by omega]
  have hcopy := @getElem?_copyWithin src (8 * z) (9 * z) lg
    (by omega) (by omega)
  have hbuf1 : ∀ p, buf1[p]? =
      if p = 9 * z + 8 then some (~~~(8 - lg).toUInt8)
      else if 9 * z + lg ≤ p ∧ p < 9 * z + 8 then some 0
      else if 9 * z ≤ p ∧ p < 9 * z + lg then src[8 * z + (p - 9 * z)]?
      else src[p]? := by
    intro p
    simp only [buf1, List.getElem?_set, getElem?_writeBytes, hcopy, copyWithin_length, writeBytes_length]
    by_cases hp : 9 * z + 8 = p
    · rw [if_pos hp, if_pos (by omega), if_pos hp.symm]
    · rw [if_neg hp, if_neg (Ne.symm hp)]
      by_cases hpad : 9 * z + lg ≤ p ∧ p < 9 * z + 8
      · rw [if_pos ⟨hpad.1, by omega, by omega⟩, if_pos hpad]
      · rw [if_neg (fun h' => hpad ⟨h'.1, by omega⟩), if_neg hpad]
  have hinit : InPlaceInv src (encodeAll (src.take len)) buf1 z := by
    refine ⟨by simp [buf1], fun p hp => ?_, fun p hp hpe => ?_, fun p hp => ?_⟩
    · simp only [MEMCMP_GROUP_SIZE] at hp
      rw [hbuf1, if_neg (by omega), if_neg (by omega), if_neg (by omega)]
    · simp only [MEMCMP_GROUP_SIZE] at hp
      rw [hElen] at hpe
      -- the last group: its bytes, its padding, its marker
      have hl := hlast (p - 9 * z) (by omega)
      rw [show 9 * z + (p - 9 * z) = p by omega] at hl
      rw [hl, hbuf1]
      by_cases hm8 : p = 9 * z + 8
      · rw [if_pos hm8, if_neg (by omega), if_neg (by omega)]
      · rw [if_neg hm8]
        by_cases hin : 8 * z + (p - 9 * z) < len
        · rw [if_pos hin, if_neg (by omega), if_pos (by omega), List.getElem?_take_of_lt hin]
        · rw [if_neg hin, if_pos (by omega), if_pos (by omega)]
    · rw [hElen] at hp
      rw [hbuf1, if_neg (by omega), if_neg (by omega), if_neg (by omega)]
  have hfin := encodeAllInPlaceGroups_inv (by rw [hElen]; exact h) z (by rw [hElen]; simp only [MEMCMP_GROUP_SIZE]; omega)
    (fun j r hj hr => by
      simp only [MEMCMP_GROUP_SIZE] at hr ⊢
      rw [hg j r hj hr, List.getElem?_take_of_lt (by omega)])
    (fun j hj => by simp only [MEMCMP_GROUP_SIZE]; exact hm j hj) buf1 hinit
  obtain ⟨hflen, -, hwritten, hrest⟩ := hfin
  refine ⟨_, hrun, hflen, ?_, ?_⟩
  · rw [← encodeAll_eq]
    apply List.ext_getElem?
    intro p
    by_cases hp : p < 9 * z + 9
    · rw [List.getElem?_take_of_lt hp, hwritten p (by omega) (by rw [hElen]; exact hp)]
    · rw [List.getElem?_eq_none (by simp; omega), List.getElem?_eq_none (by rw [hElen]; omega)]
  · apply List.ext_getElem?
    intro p
    rw [List.getElem?_drop, List.getElem?_drop, hrest _ (by rw [hElen]; omega)]

theorem encodeAllInPlaceDesc_eq {src : Bytes} {len : Nat} (h : encodedLen len ≤ src.length) :
    ∃ buf, encodeAllInPlaceDesc src len = some (buf, encodedLen len) ∧
      buf.take (encodedLen len) = encodeBytesDesc (src.take len) ∧
      buf.drop (encodedLen len) = src.drop (encodedLen len) := by
  obtain ⟨buf, hrun, hlen, htake, hdrop⟩ := encodeAllInPlace_eq h
  have hn : ((buf.take (encodedLen len)).map (~~~·)).length = encodedLen len := by simp; omega
  refine ⟨flipBytesInPlace buf (encodedLen len), by rw [encodeAllInPlaceDesc, hrun], ?_, ?_⟩
  · rw [flipBytesInPlace, List.take_left' hn, htake, encodeBytesDesc, encodeOrderBytes, encodeBytesGo_true]
    rfl
  · rw [flipBytesInPlace, List.drop_left' hn, hdrop]

/-! ## The decoding loop -/

/-- One turn of `try_decode_first_internal`: eight bytes and their marker. -/
theorem tryDecodeFirstInternal_chunk (T : CodecHelper) {bytes : Bytes}
    (hb : bytes.length = MEMCMP_GROUP_SIZE) (marker : UInt8) (rest : Bytes) (read : Nat)
    (dest : Bytes) :
    tryDecodeFirstInternal T (bytes ++ marker :: rest) read dest =
      if T.parsePaddingSize marker > 0 then
        if T.parsePaddingSize marker > MEMCMP_GROUP_SIZE then .error .keyPadding
        else if (dest ++ bytes).drop ((dest ++ bytes).length - T.parsePaddingSize marker) ≠
            T.PADDING.take (T.parsePaddingSize marker) then .error .keyPadding
        else .ok (read + (MEMCMP_GROUP_SIZE + 1),
          (dest ++ bytes).length - T.parsePaddingSize marker, dest ++ bytes)
      else tryDecodeFirstInternal T rest (read + (MEMCMP_GROUP_SIZE + 1)) (dest ++ bytes) := by
  have hdrop : (bytes ++ marker :: rest).drop MEMCMP_GROUP_SIZE = marker :: rest := by
    rw [List.drop_append, List.drop_of_length_le hb.le, hb, Nat.sub_self, List.drop_zero,
      List.nil_append]
  have htake : (bytes ++ marker :: rest).take MEMCMP_GROUP_SIZE = bytes := List.take_left' hb
  rw [tryDecodeFirstInternal]
  split
  · rename_i h
    rw [hdrop] at h
    cases h
  · rename_i m r h
    rw [hdrop] at h
    cases h
    simp only [htake]

theorem tryDecodeFirstInternal_short (T : CodecHelper) {src : Bytes}
    (h : src.length ≤ MEMCMP_GROUP_SIZE) (read : Nat) (dest : Bytes) :
    tryDecodeFirstInternal T src read dest = .error .eof := by
  rw [tryDecodeFirstInternal]
  split
  · rfl
  · rename_i m r hd
    rw [List.drop_of_length_le h] at hd
    cases hd

/-- What a successful `decode_bytes` leaves is a suffix of its input. -/
theorem decodeBytesGo_rest_length {desc : Bool} {data key k r : Bytes}
    (h : decodeBytesGo desc data key = .ok (k, r)) : r.length ≤ data.length := by
  obtain ⟨x, -, rfl⟩ := encodeBytesGo_of_decodeBytesGo h
  simp

section Helper

variable {T : CodecHelper} {desc : Bool}

/-- The loop computes what `decode_bytes` does, when `T` reads markers and
padding as `decode_bytes` does in the direction `desc`: it reads the encoding
and writes the key, raw, with the padding of the last group after it. -/
theorem tryDecodeFirstInternal_eq (hparse : ∀ m, T.parsePaddingSize m = padSizeOf desc m)
    (hpad : ∀ p, p ≤ MEMCMP_GROUP_SIZE → T.PADDING.take p = encPadding desc p)
    (src : Bytes) (read : Nat) (dest : Bytes) :
    (tryDecodeFirstInternal T src read dest).map (fun r => (r.1, r.2.1, r.2.2.take r.2.1)) =
      (decodeBytesGo desc src dest).map
        (fun kr => (read + (src.length - kr.2.length), kr.1.length, adjustBytesOrder kr.1 desc)) := by
  induction hn : src.length using Nat.strong_induction_on generalizing src read dest with
  | _ n ih =>
    by_cases hshort : src.length ≤ MEMCMP_GROUP_SIZE
    · rw [tryDecodeFirstInternal_short T hshort, decodeBytesGo_short desc hshort]
      rfl
    obtain ⟨marker, rest, hd⟩ : ∃ m r, src.drop MEMCMP_GROUP_SIZE = m :: r := by
      cases hd : src.drop MEMCMP_GROUP_SIZE with
      | nil => exact absurd (List.drop_eq_nil_iff.mp hd) hshort
      | cons m r => exact ⟨m, r, rfl⟩
    have hbytes : (src.take MEMCMP_GROUP_SIZE).length = MEMCMP_GROUP_SIZE := by
      rw [List.length_take]
      omega
    have hsplit : src = src.take MEMCMP_GROUP_SIZE ++ marker :: rest := by
      rw [← hd, List.take_append_drop]
    have hlen : src.length = rest.length + (MEMCMP_GROUP_SIZE + 1) := by
      have := congrArg List.length hd
      simp only [List.length_drop, List.length_cons] at this
      omega
    rw [hsplit, tryDecodeFirstInternal_chunk T hbytes, decodeBytesGo_chunk desc hbytes, hparse]
    have hG : MEMCMP_GROUP_SIZE = ENC_GROUP_SIZE := rfl
    simp only [hG] at hpad hbytes hlen ⊢
    by_cases hzero : padSizeOf desc marker = 0
    · -- no padding: both loops go on with the group appended
      rw [if_neg (by omega), if_pos hzero]
      have hrec := ih rest.length (by omega) rest (read + (ENC_GROUP_SIZE + 1))
        (dest ++ src.take ENC_GROUP_SIZE) rfl
      rw [hrec]
      cases hdec : decodeBytesGo desc rest (dest ++ src.take ENC_GROUP_SIZE) with
      | error e => rfl
      | ok kr =>
        have hr := decodeBytesGo_rest_length hdec
        simp only [Except.map]
        congr 2
        omega
    rw [if_pos (by omega), if_neg hzero]
    by_cases hbig : padSizeOf desc marker > ENC_GROUP_SIZE
    · rw [if_pos hbig, if_pos hbig]
      rfl
    rw [if_neg hbig, if_neg hbig]
    -- the padding: the end of the group just written
    have hseg : (dest ++ src.take ENC_GROUP_SIZE).drop
        ((dest ++ src.take ENC_GROUP_SIZE).length - padSizeOf desc marker) =
        (src.take ENC_GROUP_SIZE).drop (ENC_GROUP_SIZE - padSizeOf desc marker) := by
      rw [List.drop_append, List.length_append, hbytes,
        List.drop_of_length_le (by omega), List.nil_append]
      congr 1
      omega
    have hseglen : ((src.take ENC_GROUP_SIZE).drop (ENC_GROUP_SIZE - padSizeOf desc marker)).length =
        padSizeOf desc marker := by
      simp only [List.length_drop, hbytes]
      omega
    rw [hseg, hpad _ (by omega)]
    cases hany : ((src.take ENC_GROUP_SIZE).drop (ENC_GROUP_SIZE - padSizeOf desc marker)).any
        (· != if desc then ~~~0 else 0) with
    | true =>
      have hne : (src.take ENC_GROUP_SIZE).drop (ENC_GROUP_SIZE - padSizeOf desc marker) ≠
          encPadding desc (padSizeOf desc marker) := by
        intro heq
        rw [heq, encPadding] at hany
        simp at hany
      rw [if_pos hne, if_pos rfl]
      rfl
    | false =>
      rw [any_ne_eq_false_iff, hseglen] at hany
      rw [if_neg (not_not.mpr (by rw [hany]; rfl)), if_neg Bool.false_ne_true]
      simp only [Except.map, adjustBytesOrder_adjustBytesOrder, List.length_append, hbytes,
        adjustBytesOrder_length, List.length_take]
      congr 1
      refine Prod.ext ?_ (Prod.ext ?_ ?_) <;> dsimp only
      · omega
      · omega
      · rw [List.take_append, List.take_of_length_le (by omega)]
        congr 2
        omega

end Helper

/-! ## In place -/

/-- One turn in place: the group at `read` goes down to `written`, and the
marker after it stays where it was. -/
theorem tryDecodeFirstInPlaceGo_eq (T : CodecHelper) {buffer : Bytes} {read written : Nat}
    (hle : written ≤ read) :
    (tryDecodeFirstInPlaceGo T buffer read written).map (fun r => (r.1, r.2.1, r.2.2.take r.2.1)) =
      (tryDecodeFirstInternal T (buffer.drop read) read (buffer.take written)).map
        (fun r => (r.1, r.2.1, r.2.2.take r.2.1)) := by
  induction hn : buffer.length - read using Nat.strong_induction_on
    generalizing buffer read written with
  | _ n ih =>
    have hG : MEMCMP_GROUP_SIZE = ENC_GROUP_SIZE := rfl
    rw [tryDecodeFirstInPlaceGo]
    dsimp only
    by_cases hend : read + (MEMCMP_GROUP_SIZE + 1) > buffer.length
    · rw [if_pos hend, tryDecodeFirstInternal_short T (by simp only [List.length_drop]; omega)]
    rw [if_neg hend]
    obtain ⟨marker, rest, hd⟩ : ∃ m r, (buffer.drop read).drop MEMCMP_GROUP_SIZE = m :: r := by
      cases hd : (buffer.drop read).drop MEMCMP_GROUP_SIZE with
      | nil =>
        rw [List.drop_eq_nil_iff, List.length_drop] at hd
        omega
      | cons m r => exact ⟨m, r, rfl⟩
    have hbytes : ((buffer.drop read).take MEMCMP_GROUP_SIZE).length = MEMCMP_GROUP_SIZE := by
      rw [List.length_take, List.length_drop]
      omega
    have hsplit : buffer.drop read = (buffer.drop read).take MEMCMP_GROUP_SIZE ++ marker :: rest := by
      rw [← hd, List.take_append_drop]
    have hdest : (buffer.take written).length = written := by
      rw [List.length_take]
      omega
    -- after the move
    have hmoved : (copyWithin buffer read written MEMCMP_GROUP_SIZE).drop (read + MEMCMP_GROUP_SIZE) =
        marker :: rest := by
      rw [copyWithin_drop hle, ← List.drop_drop, hd]
    have htake : (copyWithin buffer read written MEMCMP_GROUP_SIZE).take (written + MEMCMP_GROUP_SIZE) =
        buffer.take written ++ (buffer.drop read).take MEMCMP_GROUP_SIZE :=
      copyWithin_take (by omega) (by omega)
    rw [getD_of_drop_eq_cons hmoved, hsplit, tryDecodeFirstInternal_chunk T hbytes]
    by_cases hzero : T.parsePaddingSize marker > 0
    · rw [if_pos hzero, if_pos hzero]
      by_cases hbig : T.parsePaddingSize marker > MEMCMP_GROUP_SIZE
      · rw [if_pos hbig, if_pos hbig]
      rw [if_neg hbig, if_neg hbig]
      have hlen : (buffer.take written ++ (buffer.drop read).take MEMCMP_GROUP_SIZE).length =
          written + MEMCMP_GROUP_SIZE := by
        rw [List.length_append, hdest, hbytes]
      -- the padding and the key are read from the moved group
      have hseg : ((copyWithin buffer read written MEMCMP_GROUP_SIZE).drop
          (written + MEMCMP_GROUP_SIZE - T.parsePaddingSize marker)).take (T.parsePaddingSize marker) =
          (buffer.take written ++ (buffer.drop read).take MEMCMP_GROUP_SIZE).drop
            ((buffer.take written ++ (buffer.drop read).take MEMCMP_GROUP_SIZE).length -
              T.parsePaddingSize marker) := by
        rw [List.take_drop, Nat.sub_add_cancel (by omega), htake, hlen]
      have hkey : (copyWithin buffer read written MEMCMP_GROUP_SIZE).take
          (written + MEMCMP_GROUP_SIZE - T.parsePaddingSize marker) =
          (buffer.take written ++ (buffer.drop read).take MEMCMP_GROUP_SIZE).take
            (written + MEMCMP_GROUP_SIZE - T.parsePaddingSize marker) := by
        rw [← htake, List.take_take, Nat.min_eq_left (by omega)]
      rw [hseg]
      split_ifs
      · rfl
      · simp only [Except.map, hlen, hkey]
    · -- no padding: both loops go on
      rw [if_neg hzero, if_neg hzero]
      have hnext : (copyWithin buffer read written MEMCMP_GROUP_SIZE).drop
          (read + (MEMCMP_GROUP_SIZE + 1)) = rest := by
        rw [← Nat.add_assoc, ← List.drop_drop, hmoved]
        rfl
      have hrec := ih (buffer.length - (read + (MEMCMP_GROUP_SIZE + 1)))
        (by simp only [MEMCMP_GROUP_SIZE] at hend ⊢; omega)
        (show written + MEMCMP_GROUP_SIZE ≤ read + (MEMCMP_GROUP_SIZE + 1) by omega)
        (show (copyWithin buffer read written MEMCMP_GROUP_SIZE).length -
          (read + (MEMCMP_GROUP_SIZE + 1)) = buffer.length - (read + (MEMCMP_GROUP_SIZE + 1)) by
          rw [copyWithin_length])
      rw [hrec, hnext, htake]

/-! ## The decoders, both ways -/

theorem Ascending_parsePaddingSize (m : UInt8) :
    Ascending.parsePaddingSize m = padSizeOf false m := by
  simp [Ascending, padSizeOf, complement_eq_marker_sub]

theorem Descending_parsePaddingSize (m : UInt8) :
    Descending.parsePaddingSize m = padSizeOf true m := rfl

theorem Ascending_PADDING {p : Nat} (hp : p ≤ MEMCMP_GROUP_SIZE) :
    Ascending.PADDING.take p = encPadding false p := by
  simp only [Ascending, encPadding, List.take_replicate, Bool.false_eq_true, if_false,
    MEMCMP_PAD_BYTE, Nat.min_eq_left hp]

theorem Descending_PADDING {p : Nat} (hp : p ≤ MEMCMP_GROUP_SIZE) :
    Descending.PADDING.take p = encPadding true p := by
  simp only [Descending, encPadding, List.take_replicate, if_true, MEMCMP_PAD_BYTE,
    Nat.min_eq_left hp]

theorem flipBytesInPlace_take (out : Bytes) (w : Nat) :
    (flipBytesInPlace out w).take w = (out.take w).map (~~~ ·) := by
  simp only [flipBytesInPlace, List.take_append, List.length_map, List.length_take]
  by_cases hw : w ≤ out.length
  · simp [Nat.min_eq_left hw, List.take_take]
  · simp [List.drop_of_length_le (show out.length ≤ w by omega), List.take_take]

section Helper

variable {T : CodecHelper} {desc : Bool}

/-- The loop reads an encoding whole and writes the key, raw, at the front
of `dest`. -/
theorem tryDecodeFirstInternal_encode (hparse : ∀ m, T.parsePaddingSize m = padSizeOf desc m)
    (hpad : ∀ p, p ≤ MEMCMP_GROUP_SIZE → T.PADDING.take p = encPadding desc p) (x s : Bytes) :
    ∃ out, tryDecodeFirstInternal T (encodeOrderBytes x desc ++ s) 0 [] =
      .ok (encodedLen x.length, x.length, out) ∧ out.take x.length = adjustBytesOrder x desc := by
  have h := tryDecodeFirstInternal_eq hparse hpad (encodeOrderBytes x desc ++ s) 0 []
  have hdec : decodeBytesGo desc (encodeOrderBytes x desc ++ s) [] = .ok (x, s) :=
    decodeBytes_encodeOrderBytes x s desc
  rw [hdec] at h
  cases hrun : tryDecodeFirstInternal T (encodeOrderBytes x desc ++ s) 0 [] with
  | error e =>
    rw [hrun] at h
    cases h
  | ok r =>
    rw [hrun] at h
    obtain ⟨n, w, out⟩ := r
    simp only [Except.map, Except.ok.injEq, Prod.mk.injEq] at h
    obtain ⟨hn, rfl, hout⟩ := h
    refine ⟨out, ?_, hout⟩
    rw [hn, List.length_append, encodeOrderBytes, encodeBytesGo_length]
    simp only [Nat.zero_add, Nat.add_sub_cancel, maxEncodedBytesSize, encodedLen]
    rfl

/-- Whatever the loop accepts, the bytes it read are the encoding of the key
it wrote. -/
theorem encodeOrderBytes_of_tryDecodeFirstInternal
    (hparse : ∀ m, T.parsePaddingSize m = padSizeOf desc m)
    (hpad : ∀ p, p ≤ MEMCMP_GROUP_SIZE → T.PADDING.take p = encPadding desc p) {y out : Bytes}
    {n w : Nat} (h : tryDecodeFirstInternal T y 0 [] = .ok (n, w, out)) :
    y.take n = encodeOrderBytes (adjustBytesOrder (out.take w) desc) desc := by
  have heq := tryDecodeFirstInternal_eq hparse hpad y 0 []
  rw [h] at heq
  cases hdec : decodeBytesGo desc y [] with
  | error e =>
    rw [hdec] at heq
    cases heq
  | ok kr =>
    rw [hdec] at heq
    obtain ⟨k, r⟩ := kr
    simp only [Except.map, Except.ok.injEq, Prod.mk.injEq] at heq
    obtain ⟨hn, -, hout⟩ := heq
    obtain ⟨x, hk, hy⟩ := encodeBytesGo_of_decodeBytesGo hdec
    simp only [List.nil_append, adjustBytesOrder_adjustBytesOrder] at hk
    subst hk
    rw [hout, adjustBytesOrder_adjustBytesOrder, hn, hy, List.length_append, Nat.zero_add,
      Nat.add_sub_cancel, List.take_left' rfl]
    rfl

/-- Run in place from the front of the buffer, the loop returns what it
returns with a buffer of its own. -/
theorem tryDecodeFirstInPlaceGo_ok {buffer out : Bytes} {n w : Nat}
    (h : tryDecodeFirstInPlaceGo T buffer 0 0 = .ok (n, w, out)) :
    ∃ out', tryDecodeFirstInternal T buffer 0 [] = .ok (n, w, out') ∧ out'.take w = out.take w := by
  have heq := @tryDecodeFirstInPlaceGo_eq T buffer 0 0 (Nat.le_refl 0)
  rw [h, List.drop_zero, List.take_zero] at heq
  cases hrun : tryDecodeFirstInternal T buffer 0 [] with
  | error e =>
    rw [hrun] at heq
    cases heq
  | ok r =>
    rw [hrun] at heq
    obtain ⟨n', w', out'⟩ := r
    simp only [Except.map, Except.ok.injEq, Prod.mk.injEq] at heq
    obtain ⟨rfl, rfl, hout⟩ := heq
    exact ⟨out', rfl, hout.symm⟩

theorem tryDecodeFirstInPlaceGo_of_ok {buffer out : Bytes} {n w : Nat}
    (h : tryDecodeFirstInternal T buffer 0 [] = .ok (n, w, out)) :
    ∃ out', tryDecodeFirstInPlaceGo T buffer 0 0 = .ok (n, w, out') ∧ out'.take w = out.take w := by
  have heq := @tryDecodeFirstInPlaceGo_eq T buffer 0 0 (Nat.le_refl 0)
  rw [List.drop_zero, List.take_zero, h] at heq
  cases hrun : tryDecodeFirstInPlaceGo T buffer 0 0 with
  | error e =>
    rw [hrun] at heq
    cases heq
  | ok r =>
    rw [hrun] at heq
    obtain ⟨n', w', out'⟩ := r
    simp only [Except.map, Except.ok.injEq, Prod.mk.injEq] at heq
    obtain ⟨rfl, rfl, hout⟩ := heq
    exact ⟨out', rfl, hout⟩

end Helper

theorem tryDecodeFirstDesc_ok {src out : Bytes} {n w : Nat}
    (h : tryDecodeFirstDesc src = .ok (n, w, out)) :
    ∃ out', tryDecodeFirstInternal Descending src 0 [] = .ok (n, w, out') ∧
      out = flipBytesInPlace out' w := by
  unfold tryDecodeFirstDesc at h
  cases hrun : tryDecodeFirstInternal Descending src 0 [] with
  | error e => simp [hrun, bind, Except.bind] at h
  | ok r =>
    obtain ⟨n', w', out'⟩ := r
    simp only [hrun, bind, Except.bind, pure, Except.pure, Except.ok.injEq, Prod.mk.injEq] at h
    obtain ⟨rfl, rfl, rfl⟩ := h
    exact ⟨out', rfl, rfl⟩

theorem tryDecodeFirstInPlaceDesc_ok {buffer out : Bytes} {n w : Nat}
    (h : tryDecodeFirstInPlaceDesc buffer = .ok (n, w, out)) :
    ∃ out', tryDecodeFirstInPlaceGo Descending buffer 0 0 = .ok (n, w, out') ∧
      out = flipBytesInPlace out' w := by
  unfold tryDecodeFirstInPlaceDesc at h
  cases hrun : tryDecodeFirstInPlaceGo Descending buffer 0 0 with
  | error e => simp [hrun, bind, Except.bind] at h
  | ok r =>
    obtain ⟨n', w', out'⟩ := r
    simp only [hrun, bind, Except.bind, pure, Except.pure, Except.ok.injEq, Prod.mk.injEq] at h
    obtain ⟨rfl, rfl, rfl⟩ := h
    exact ⟨out', rfl, rfl⟩

/-- The descending decoders write the complemented key and flip it back. -/
theorem flipBytesInPlace_take_of_take {out x : Bytes} (h : out.take x.length = adjustBytesOrder x true) :
    (flipBytesInPlace out x.length).take x.length = x := by
  rw [flipBytesInPlace_take, h, ← adjustBytesOrder_true, adjustBytesOrder_adjustBytesOrder]

/-! ## The four decoders on an encoding -/

theorem tryDecodeFirst_encodeAll (x s : Bytes) :
    ∃ out, tryDecodeFirst (encodeAll x ++ s) = .ok (encodedLen x.length, x.length, out) ∧
      out.take x.length = x := by
  rw [encodeAll_eq]
  exact tryDecodeFirstInternal_encode Ascending_parsePaddingSize (fun _ => Ascending_PADDING) x s

theorem tryDecodeFirstDesc_encodeAllDesc (x s : Bytes) :
    ∃ out, tryDecodeFirstDesc (encodeAllDesc x ++ s) = .ok (encodedLen x.length, x.length, out) ∧
      out.take x.length = x := by
  obtain ⟨out, hrun, hout⟩ :=
    tryDecodeFirstInternal_encode Descending_parsePaddingSize (fun _ => Descending_PADDING) x s
  refine ⟨flipBytesInPlace out x.length, ?_, flipBytesInPlace_take_of_take hout⟩
  rw [encodeAllDesc_eq, encodeBytesDesc, tryDecodeFirstDesc, hrun]
  rfl

theorem tryDecodeFirstInPlace_encodeAll (x s : Bytes) :
    ∃ out, tryDecodeFirstInPlace (encodeAll x ++ s) = .ok (encodedLen x.length, x.length, out) ∧
      out.take x.length = x := by
  obtain ⟨out, hrun, hout⟩ := tryDecodeFirst_encodeAll x s
  obtain ⟨out', hrun', hout'⟩ := tryDecodeFirstInPlaceGo_of_ok hrun
  exact ⟨out', hrun', hout'.trans hout⟩

theorem tryDecodeFirstInPlaceDesc_encodeAllDesc (x s : Bytes) :
    ∃ out, tryDecodeFirstInPlaceDesc (encodeAllDesc x ++ s) =
      .ok (encodedLen x.length, x.length, out) ∧ out.take x.length = x := by
  obtain ⟨out, hrun, hout⟩ :=
    tryDecodeFirstInternal_encode Descending_parsePaddingSize (fun _ => Descending_PADDING) x s
  obtain ⟨out', hrun', hout'⟩ := tryDecodeFirstInPlaceGo_of_ok hrun
  refine ⟨flipBytesInPlace out' x.length, ?_, flipBytesInPlace_take_of_take (hout'.trans hout)⟩
  rw [encodeAllDesc_eq, encodeBytesDesc, tryDecodeFirstInPlaceDesc, hrun']
  rfl

/-! ## What the four decoders accept is an encoding -/

theorem encodeAll_of_tryDecodeFirst {y out : Bytes} {n w : Nat}
    (h : tryDecodeFirst y = .ok (n, w, out)) : y.take n = encodeAll (out.take w) := by
  rw [encodeOrderBytes_of_tryDecodeFirstInternal Ascending_parsePaddingSize
    (fun _ => Ascending_PADDING) h, adjustBytesOrder_false, encodeAll_eq]
  rfl

theorem encodeAllDesc_of_tryDecodeFirstDesc {y out : Bytes} {n w : Nat}
    (h : tryDecodeFirstDesc y = .ok (n, w, out)) : y.take n = encodeAllDesc (out.take w) := by
  obtain ⟨out', hrun, rfl⟩ := tryDecodeFirstDesc_ok h
  rw [encodeOrderBytes_of_tryDecodeFirstInternal Descending_parsePaddingSize
    (fun _ => Descending_PADDING) hrun, flipBytesInPlace_take, encodeAllDesc_eq]
  rfl

theorem encodeAll_of_tryDecodeFirstInPlace {y out : Bytes} {n w : Nat}
    (h : tryDecodeFirstInPlace y = .ok (n, w, out)) : y.take n = encodeAll (out.take w) := by
  obtain ⟨out', hrun, hout⟩ := tryDecodeFirstInPlaceGo_ok h
  rw [encodeAll_of_tryDecodeFirst hrun, hout]

theorem encodeAllDesc_of_tryDecodeFirstInPlaceDesc {y out : Bytes} {n w : Nat}
    (h : tryDecodeFirstInPlaceDesc y = .ok (n, w, out)) : y.take n = encodeAllDesc (out.take w) := by
  obtain ⟨out', hrun, rfl⟩ := tryDecodeFirstInPlaceDesc_ok h
  obtain ⟨out'', hrun', hout⟩ := tryDecodeFirstInPlaceGo_ok hrun
  rw [encodeOrderBytes_of_tryDecodeFirstInternal Descending_parsePaddingSize
    (fun _ => Descending_PADDING) hrun', hout, flipBytesInPlace_take, encodeAllDesc_eq]
  rfl

/-! ## The length of the first encoding -/

theorem getFirstEncodedLenInternal_chunk (T : CodecHelper) {bytes : Bytes}
    (hb : bytes.length = MEMCMP_GROUP_SIZE) (marker : UInt8) (rest : Bytes) :
    getFirstEncodedLenInternal T (bytes ++ marker :: rest) =
      if T.parsePaddingSize marker > 0 then MEMCMP_GROUP_SIZE + 1
      else MEMCMP_GROUP_SIZE + 1 + getFirstEncodedLenInternal T rest := by
  have hdrop : (bytes ++ marker :: rest).drop MEMCMP_GROUP_SIZE = marker :: rest := by
    rw [List.drop_append, List.drop_of_length_le hb.le, hb, Nat.sub_self, List.drop_zero,
      List.nil_append]
  rw [getFirstEncodedLenInternal]
  split
  · rename_i h
    rw [hdrop] at h
    cases h
  · rename_i m r h
    rw [hdrop] at h
    cases h
    rfl

theorem getFirstEncodedLenInternal_short (T : CodecHelper) {data : Bytes}
    (h : data.length ≤ MEMCMP_GROUP_SIZE) : getFirstEncodedLenInternal T data = data.length := by
  rw [getFirstEncodedLenInternal]
  split
  · rfl
  · rename_i m r hd
    rw [List.drop_of_length_le h] at hd
    cases hd

section Helper

variable {T : CodecHelper} {desc : Bool}

/-- The `codec` crate's scanner is `tikv_util`'s, when `T` reads markers as
the direction `desc` does. -/
theorem getFirstEncodedLenInternal_eq (hparse : ∀ m, T.parsePaddingSize m = padSizeOf desc m)
    (data : Bytes) : getFirstEncodedLenInternal T data = encodedBytesLenGo desc data := by
  induction hn : data.length using Nat.strong_induction_on generalizing data with
  | _ n ih =>
    by_cases hshort : data.length ≤ MEMCMP_GROUP_SIZE
    · rw [getFirstEncodedLenInternal_short T hshort, encodedBytesLenGo_short desc hshort]
    obtain ⟨marker, rest, hd⟩ : ∃ m r, data.drop MEMCMP_GROUP_SIZE = m :: r := by
      cases hd : data.drop MEMCMP_GROUP_SIZE with
      | nil => exact absurd (List.drop_eq_nil_iff.mp hd) hshort
      | cons m r => exact ⟨m, r, rfl⟩
    have hsplit : data = data.take MEMCMP_GROUP_SIZE ++ marker :: rest := by
      rw [← hd, List.take_append_drop]
    have hbytes : (data.take MEMCMP_GROUP_SIZE).length = MEMCMP_GROUP_SIZE := by
      rw [List.length_take]
      omega
    have hrest : rest.length < n := by
      have := congrArg List.length hd
      simp only [List.length_drop, List.length_cons] at this
      omega
    rw [hsplit, getFirstEncodedLenInternal_chunk T hbytes, encodedBytesLenGo_chunk desc hbytes,
      hparse, ih rest.length hrest rest rfl]
    by_cases hs : padSizeOf desc marker ≠ 0
    · rw [if_pos (by omega), if_pos hs]; rfl
    · rw [if_neg (by omega), if_neg hs]; rfl

/-- Wherever the decoding loop succeeds, the scanner gives the bytes it read. -/
theorem getFirstEncodedLenInternal_of_tryDecodeFirstInternal
    (hparse : ∀ m, T.parsePaddingSize m = padSizeOf desc m)
    (hpad : ∀ p, p ≤ MEMCMP_GROUP_SIZE → T.PADDING.take p = encPadding desc p) {y out : Bytes}
    {n w : Nat} (h : tryDecodeFirstInternal T y 0 [] = .ok (n, w, out)) :
    getFirstEncodedLenInternal T y = n := by
  have heq := tryDecodeFirstInternal_eq hparse hpad y 0 []
  rw [h] at heq
  cases hdec : decodeBytesGo desc y [] with
  | error e =>
    rw [hdec] at heq
    cases heq
  | ok kr =>
    rw [hdec] at heq
    obtain ⟨k, r⟩ := kr
    simp only [Except.map, Except.ok.injEq, Prod.mk.injEq] at heq
    rw [getFirstEncodedLenInternal_eq hparse, ← encodedBytesLen, encodedBytesLen_of_decodeBytes hdec,
      heq.1, Nat.zero_add]

end Helper

theorem getFirstEncodedLen_of_tryDecodeFirst {y out : Bytes} {n w : Nat}
    (h : tryDecodeFirst y = .ok (n, w, out)) : getFirstEncodedLen y = n :=
  getFirstEncodedLenInternal_of_tryDecodeFirstInternal Ascending_parsePaddingSize
    (fun _ => Ascending_PADDING) h

theorem getFirstEncodedLenDesc_of_tryDecodeFirstDesc {y out : Bytes} {n w : Nat}
    (h : tryDecodeFirstDesc y = .ok (n, w, out)) : getFirstEncodedLenDesc y = n := by
  obtain ⟨out', hrun, -⟩ := tryDecodeFirstDesc_ok h
  exact getFirstEncodedLenInternal_of_tryDecodeFirstInternal Descending_parsePaddingSize
    (fun _ => Descending_PADDING) hrun


/-- Both codecs decode an encoding, whatever follows it, to its key, and
accept nothing else: `decode_bytes` and `decode_bytes_in_place` in either
direction, and the four `try_decode_first` decoders, which read
`encoded_len(|x|)` bytes and write `|x|`. -/
theorem memcomparable_decode :
    (∀ (x s : Bytes) (desc : Bool),
      decodeBytes (encodeOrderBytes x desc ++ s) desc = .ok (x, s) ∧
      decodeBytesInPlace (encodeOrderBytes x desc ++ s) desc = .ok x) ∧
    (∀ (y x s : Bytes) (desc : Bool),
      decodeBytes y desc = .ok (x, s) → y = encodeOrderBytes x desc ++ s) ∧
    (∀ (y x : Bytes) (desc : Bool),
      decodeBytesInPlace y desc = .ok x → ∃ s, y = encodeOrderBytes x desc ++ s) ∧
    (∀ x s : Bytes,
      (∃ out, tryDecodeFirst (encodeAll x ++ s) = .ok (encodedLen x.length, x.length, out) ∧
        out.take x.length = x) ∧
      (∃ out, tryDecodeFirstDesc (encodeAllDesc x ++ s) = .ok (encodedLen x.length, x.length, out) ∧
        out.take x.length = x) ∧
      (∃ out, tryDecodeFirstInPlace (encodeAll x ++ s) = .ok (encodedLen x.length, x.length, out) ∧
        out.take x.length = x) ∧
      (∃ out, tryDecodeFirstInPlaceDesc (encodeAllDesc x ++ s) =
        .ok (encodedLen x.length, x.length, out) ∧ out.take x.length = x)) ∧
    (∀ (y out : Bytes) (n w : Nat),
      (tryDecodeFirst y = .ok (n, w, out) → y.take n = encodeAll (out.take w)) ∧
      (tryDecodeFirstDesc y = .ok (n, w, out) → y.take n = encodeAllDesc (out.take w)) ∧
      (tryDecodeFirstInPlace y = .ok (n, w, out) → y.take n = encodeAll (out.take w)) ∧
      (tryDecodeFirstInPlaceDesc y = .ok (n, w, out) → y.take n = encodeAllDesc (out.take w))) := by
  refine ⟨fun x s desc => ⟨decodeBytes_encodeOrderBytes x s desc,
      decodeBytesInPlace_encodeOrderBytes x s desc⟩,
    fun _ _ _ _ h => encodeOrderBytes_of_decodeBytes h,
    fun _ _ _ h => encodeOrderBytes_of_decodeBytesInPlace h,
    fun x s => ⟨tryDecodeFirst_encodeAll x s, tryDecodeFirstDesc_encodeAllDesc x s,
      tryDecodeFirstInPlace_encodeAll x s, tryDecodeFirstInPlaceDesc_encodeAllDesc x s⟩,
    fun _ _ _ _ => ⟨encodeAll_of_tryDecodeFirst, encodeAllDesc_of_tryDecodeFirstDesc,
      encodeAll_of_tryDecodeFirstInPlace, encodeAllDesc_of_tryDecodeFirstInPlaceDesc⟩⟩

/-- The length scanners agree with the decoders: on every buffer a decoder
accepts, the scanner returns the number of bytes the decoder read.
`encoded_bytes_len` against `decode_bytes`, `get_first_encoded_len(_desc)`
against `try_decode_first(_desc)`, `get_first_encoded_var_int_len` against
`try_decode_var_u64`, and `CompactByteCodec::get_first_encoded_len` against
`read_compact_bytes`, on a buffer shorter than `2^64` as every slice is. -/
theorem encodedLen_scanners_agree :
    (∀ (y k r : Bytes) (desc : Bool), decodeBytes y desc = .ok (k, r) →
      encodedBytesLen y desc = y.length - r.length) ∧
    (∀ (y out : Bytes) (n w : Nat), tryDecodeFirst y = .ok (n, w, out) → getFirstEncodedLen y = n) ∧
    (∀ (y out : Bytes) (n w : Nat), tryDecodeFirstDesc y = .ok (n, w, out) →
      getFirstEncodedLenDesc y = n) ∧
    (∀ (y : Bytes) (v : UInt64) (n : Nat), tryDecodeVarU64 y = .ok (v, n) →
      getFirstEncodedVarIntLen y = n) ∧
    (∀ y bs r : Bytes, y.length < 2 ^ 64 → readCompactBytes y = .ok (bs, r) →
      CompactByteCodec.getFirstEncodedLen y = y.length - r.length) :=
  ⟨fun _ _ _ _ h => encodedBytesLen_of_decodeBytes h,
    fun _ _ _ _ h => getFirstEncodedLen_of_tryDecodeFirst h,
    fun _ _ _ _ h => getFirstEncodedLenDesc_of_tryDecodeFirstDesc h,
    fun _ _ _ h => getFirstEncodedVarIntLen_of_tryDecodeVarU64 h,
    fun _ _ _ hlen h => CompactByteCodec.getFirstEncodedLen_of_readCompactBytes hlen h⟩

theorem encodedLen_scanners_agree_on_encodings :
    encodedBytesLen (encodeOrderBytes [1] true ++ [5]) true = (encodeOrderBytes [1] true ++ [5]).length - 1 ∧
      (∃ out, tryDecodeFirst (encodeAll [1] ++ [5]) = .ok (encodedLen 1, 1, out) ∧
        getFirstEncodedLen (encodeAll [1] ++ [5]) = encodedLen 1) ∧
      (∃ out, tryDecodeFirstDesc (encodeAllDesc [1] ++ [5]) = .ok (encodedLen 1, 1, out) ∧
        getFirstEncodedLenDesc (encodeAllDesc [1] ++ [5]) = encodedLen 1) ∧
      getFirstEncodedVarIntLen (encodeVarU64 300) = (encodeVarU64 300).length ∧
      CompactByteCodec.getFirstEncodedLen [2, 7, 9] = 2 := by
  obtain ⟨h1, h2, h3, h4, h5⟩ := encodedLen_scanners_agree
  obtain ⟨out, hrun, -⟩ := tryDecodeFirst_encodeAll [1] [5]
  obtain ⟨out', hrun', -⟩ := tryDecodeFirstDesc_encodeAllDesc [1] [5]
  refine ⟨h1 _ [1] [5] true (decodeBytes_encodeOrderBytes [1] [5] true), ⟨out, hrun, h2 _ _ _ _ hrun⟩,
    ⟨out', hrun', h3 _ _ _ _ hrun'⟩, ?_, h5 [2, 7, 9] [7] [9] (by decide) (by decide)⟩
  have h := tryDecodeVarU64_encodeVarU64 300 []
  rw [List.append_nil] at h
  exact h4 _ _ _ h

/-- The memcomparable encoders agree: `encode_all` and `encode_all_desc`
write what `encode_bytes` and `encode_bytes_desc` write, `encoded_len(|x|)`
bytes, which is `max_encoded_bytes_size(|x|)`; and `encode_all_in_place`
(and its descending form) on a buffer that starts with `x` and has room for
the encoding leaves the same bytes at its front, copying backward over its
own input, and the rest of the buffer untouched. -/
theorem memcomparable_encoders_agree (x buf : Bytes) (hbuf : buf.take x.length = x)
    (hroom : encodedLen x.length ≤ buf.length) :
    encodeAll x = encodeBytes x ∧ encodeAllDesc x = encodeBytesDesc x ∧
      (encodeBytes x).length = encodedLen x.length ∧ (encodeBytesDesc x).length = encodedLen x.length ∧
      encodedLen x.length = maxEncodedBytesSize x.length ∧
      (∃ out, encodeAllInPlace buf x.length = some (out, encodedLen x.length) ∧
        out.take (encodedLen x.length) = encodeBytes x ∧
        out.drop (encodedLen x.length) = buf.drop (encodedLen x.length)) ∧
      (∃ out, encodeAllInPlaceDesc buf x.length = some (out, encodedLen x.length) ∧
        out.take (encodedLen x.length) = encodeBytesDesc x ∧
        out.drop (encodedLen x.length) = buf.drop (encodedLen x.length)) := by
  have hlen : ∀ desc, (encodeOrderBytes x desc).length = encodedLen x.length := fun desc => by
    rw [encodeOrderBytes, encodeBytesGo_length]; rfl
  obtain ⟨out, hrun, -, htake, hdrop⟩ := encodeAllInPlace_eq hroom
  obtain ⟨out', hrun', htake', hdrop'⟩ := encodeAllInPlaceDesc_eq hroom
  rw [hbuf] at htake htake'
  exact ⟨encodeAll_eq x, encodeAllDesc_eq x, hlen false, hlen true, rfl, ⟨out, hrun, htake, hdrop⟩,
    ⟨out', hrun', htake', hdrop'⟩⟩

theorem memcomparable_encoders_agree_nine :
    let buf : Bytes := [1, 2, 3, 4, 5, 6, 7, 8, 9, 0, 0, 0, 0, 0, 0, 0, 0, 0]
    buf.take 9 = [1, 2, 3, 4, 5, 6, 7, 8, 9] ∧ encodedLen 9 ≤ buf.length ∧
      ∃ out, encodeAllInPlace buf 9 = some (out, encodedLen 9) ∧
        out.take (encodedLen 9) = encodeBytes [1, 2, 3, 4, 5, 6, 7, 8, 9] := by
  intro buf
  have h := memcomparable_encoders_agree [1, 2, 3, 4, 5, 6, 7, 8, 9] buf rfl (by decide)
  obtain ⟨out, hrun, htake, -⟩ := h.2.2.2.2.2.1
  exact ⟨rfl, by decide, out, hrun, htake⟩

end Tikv.Codec.MemComparableByteCodec
