import Tikv.Codec.Number
import Tikv.Lib.Lex
import Tikv.Lib.Chunks

/-!
# Memcomparable byte strings (`tikv_util::codec::bytes`)

`encode_bytes` cuts a key into groups of eight bytes. A group with more bytes
after it is written whole, followed by the marker `0xFF`; the last group is
padded with zeros to eight bytes and followed by `0xFF - pad`, so that a key
of a multiple of eight bytes ends in a group of pure padding. The descending
form writes the complement of every byte.

`decode_bytes` reads nine-byte chunks: a marker that says "no padding" makes
it go on, a padding size from 1 to 8 ends the key once the padding bytes are
checked. `decode_bytes_in_place` does the same within the buffer, moving each
group down over the marker before it, and cuts the buffer to the key.

The order of encoded keys is the order of `Vec<u8>`, the lexicographic order
with a proper prefix first.

Results:
* `encodeBytes_forkLt`: the encodings of `a < b` part at a byte that both
  have, `a`'s the smaller; so the order holds with any bytes after either
  encoding, and the descending encoding reverses it
  (`encodeBytesDesc_forkLt`).
* `decodeBytesGo_encodeBytesGo`, `decodeBytesInPlace_encodeOrderBytes`: both
  decoders read back every key, in either direction, and `decode_bytes`
  leaves the bytes after it unread.
* `encodeBytesGo_of_decodeBytesGo`, `encodeOrderBytes_of_decodeBytesInPlace`:
  what the decoders accept is an encoding; no other input is read as a key.
* `encodedBytesLen_of_decodeBytes`: the scan for the length of the first
  encoding stops where `decode_bytes` does.
* `isEncodedFrom_iff`: `is_encoded_from`, which checks chunk by chunk from
  the end without decoding, accepts exactly the encoding of the key.
-/
namespace Tikv.Codec
open ListLex

/-- `ENC_GROUP_SIZE` -/
def ENC_GROUP_SIZE : Nat := 8

/-- `ENC_MARKER` -/
def ENC_MARKER : UInt8 := 0xff

/-- mirrors components/tikv_util/src/codec/bytes.rs:66-77 (`adjust_bytes_order`) -/
def adjustBytesOrder (bs : Bytes) (desc : Bool) : Bytes :=
  if desc then bs.map (~~~ ·) else bs

/-- `ENC_ASC_PADDING[..pad]` or `ENC_DESC_PADDING[..pad]`
(components/tikv_util/src/codec/bytes.rs:15-16) -/
def encPadding (desc : Bool) (pad : Nat) : Bytes :=
  List.replicate pad (if desc then ~~~0 else 0)

/-- mirrors components/tikv_util/src/codec/bytes.rs:25-54 (`encode_bytes`), the
loop on `key[index..]`. More than eight bytes left: a whole group and the
marker `ENC_MARKER`. Otherwise the rest, padded to eight bytes, and
`ENC_MARKER - pad`; the loop goes on (`index <= len`) only when the group
needed no padding. -/
def encodeBytesGo (desc : Bool) (rest : Bytes) : Bytes :=
  if rest.length > ENC_GROUP_SIZE then
    adjustBytesOrder (rest.take ENC_GROUP_SIZE) desc ++ adjustBytesOrder [ENC_MARKER] desc ++
      encodeBytesGo desc (rest.drop ENC_GROUP_SIZE)
  else
    let pad := ENC_GROUP_SIZE - rest.length
    adjustBytesOrder rest desc ++ encPadding desc pad ++
      adjustBytesOrder [ENC_MARKER - pad.toUInt8] desc ++
      if _hpad : pad = 0 then encodeBytesGo desc [] else []
termination_by rest.length
decreasing_by
  · simp only [List.length_drop, ENC_GROUP_SIZE] at *
    omega
  · simp only [List.length_nil, ENC_GROUP_SIZE, pad] at *
    omega

/-- mirrors components/tikv_util/src/codec/bytes.rs:88-93 (`encode_order_bytes`) -/
def encodeOrderBytes (bs : Bytes) (desc : Bool) : Bytes :=
  encodeBytesGo desc bs

/-- mirrors components/tikv_util/src/codec/bytes.rs:80-82 (`encode_bytes`) -/
def encodeBytes (bs : Bytes) : Bytes :=
  encodeOrderBytes bs false

/-- mirrors components/tikv_util/src/codec/bytes.rs:84-86 (`encode_bytes_desc`) -/
def encodeBytesDesc (bs : Bytes) : Bytes :=
  encodeOrderBytes bs true

/-- mirrors components/tikv_util/src/codec/bytes.rs:19-21 (`max_encoded_bytes_size`) -/
def maxEncodedBytesSize (n : Nat) : Nat :=
  (n / ENC_GROUP_SIZE + 1) * (ENC_GROUP_SIZE + 1)

/-- The padding size a marker announces: `marker` read descending, else
`ENC_MARKER - marker`. -/
def padSizeOf (desc : Bool) (marker : UInt8) : Nat :=
  if desc then marker.toNat else (ENC_MARKER - marker).toNat

/-- mirrors components/tikv_util/src/codec/bytes.rs:174-220 (`decode_bytes`),
the loop on `data[offset..]` with the bytes pushed to `key` so far. The chunk
`data[offset..offset + 9]` is there exactly when its marker byte is. Returns
the key and the bytes after it, `data[offset..]` at the end. -/
def decodeBytesGo (desc : Bool) (data key : Bytes) : Except Error (Bytes × Bytes) :=
  match _h : data.drop ENC_GROUP_SIZE with
  | [] => .error .eof
  | marker :: rest =>
    let bytes := data.take ENC_GROUP_SIZE
    let padSize := padSizeOf desc marker
    if padSize = 0 then decodeBytesGo desc rest (key ++ bytes)
    else if padSize > ENC_GROUP_SIZE then .error .keyPadding
    else
      let padByte : UInt8 := if desc then ~~~0 else 0
      if (bytes.drop (ENC_GROUP_SIZE - padSize)).any (· != padByte) then .error .keyPadding
      else .ok (adjustBytesOrder (key ++ bytes.take (ENC_GROUP_SIZE - padSize)) desc, rest)
termination_by data.length
decreasing_by
  have hl := congrArg List.length _h
  simp only [List.length_drop, List.length_cons] at hl
  omega

/-- mirrors components/tikv_util/src/codec/bytes.rs:174 (`decode_bytes`) -/
def decodeBytes (data : Bytes) (desc : Bool) : Except Error (Bytes × Bytes) :=
  decodeBytesGo desc data []

/-! ## The groups of an encoding -/

@[simp]
theorem adjustBytesOrder_false (bs : Bytes) : adjustBytesOrder bs false = bs := rfl

@[simp]
theorem adjustBytesOrder_true (bs : Bytes) : adjustBytesOrder bs true = bs.map (~~~ ·) := rfl

@[simp]
theorem adjustBytesOrder_length (bs : Bytes) (desc : Bool) :
    (adjustBytesOrder bs desc).length = bs.length := by
  cases desc <;> simp

theorem adjustBytesOrder_append (u v : Bytes) (desc : Bool) :
    adjustBytesOrder (u ++ v) desc = adjustBytesOrder u desc ++ adjustBytesOrder v desc := by
  cases desc <;> simp

@[simp]
theorem adjustBytesOrder_adjustBytesOrder (bs : Bytes) (desc : Bool) :
    adjustBytesOrder (adjustBytesOrder bs desc) desc = bs := by
  cases desc <;> simp [Function.comp_def]

@[simp]
theorem encPadding_length (desc : Bool) (pad : Nat) : (encPadding desc pad).length = pad := by
  simp [encPadding]

/-- A group that more bytes follow, or a full last group: the eight bytes and
`ENC_MARKER`, then the groups of the rest. -/
theorem encodeBytesGo_of_le {desc : Bool} {rest : Bytes} (h : ENC_GROUP_SIZE ≤ rest.length) :
    encodeBytesGo desc rest =
      adjustBytesOrder (rest.take ENC_GROUP_SIZE) desc ++ adjustBytesOrder [ENC_MARKER] desc ++
        encodeBytesGo desc (rest.drop ENC_GROUP_SIZE) := by
  rw [encodeBytesGo]
  by_cases hgt : rest.length > ENC_GROUP_SIZE
  · rw [if_pos hgt]
  · -- exactly eight bytes: no padding, marker `ENC_MARKER - 0`, one more turn on nothing
    have hlen : rest.length = ENC_GROUP_SIZE := by omega
    rw [if_neg hgt]
    dsimp only
    rw [dif_pos (by omega), List.take_of_length_le (by omega),
      List.drop_of_length_le (by omega), hlen, Nat.sub_self]
    simp [encPadding]

/-- The last group, short of eight bytes: the rest, its padding, and the
padding size in the marker. -/
theorem encodeBytesGo_of_lt {desc : Bool} {rest : Bytes} (h : rest.length < ENC_GROUP_SIZE) :
    encodeBytesGo desc rest =
      adjustBytesOrder rest desc ++ encPadding desc (ENC_GROUP_SIZE - rest.length) ++
        adjustBytesOrder [ENC_MARKER - (ENC_GROUP_SIZE - rest.length).toUInt8] desc := by
  rw [encodeBytesGo, if_neg (by omega)]
  dsimp only
  rw [dif_neg (by omega), List.append_nil]

theorem encodeBytesGo_length (desc : Bool) (rest : Bytes) :
    (encodeBytesGo desc rest).length = maxEncodedBytesSize rest.length := by
  induction h : rest.length using Nat.strong_induction_on generalizing rest with
  | _ n ih =>
    by_cases hle : ENC_GROUP_SIZE ≤ rest.length
    · have hdrop := ih (rest.drop ENC_GROUP_SIZE).length
        (by simp only [List.length_drop, ENC_GROUP_SIZE] at hle ⊢; omega) _ rfl
      rw [encodeBytesGo_of_le hle, List.length_append, hdrop]
      simp only [List.length_append, adjustBytesOrder_length, List.length_take,
        List.length_drop, List.length_singleton, maxEncodedBytesSize, ENC_GROUP_SIZE] at hle ⊢
      omega
    · rw [encodeBytesGo_of_lt (by omega)]
      simp only [List.length_append, adjustBytesOrder_length, encPadding_length,
        List.length_singleton, maxEncodedBytesSize, ENC_GROUP_SIZE] at hle ⊢
      omega

/-- The descending encoding is the ascending one complemented. -/
theorem encodeBytesGo_true (rest : Bytes) :
    encodeBytesGo true rest = (encodeBytesGo false rest).map (~~~ ·) := by
  induction h : rest.length using Nat.strong_induction_on generalizing rest with
  | _ n ih =>
    by_cases hle : ENC_GROUP_SIZE ≤ rest.length
    · rw [encodeBytesGo_of_le hle, encodeBytesGo_of_le hle,
        ih _ (by simp only [List.length_drop, ENC_GROUP_SIZE] at hle ⊢; omega) _ rfl]
      simp
    · rw [encodeBytesGo_of_lt (by omega), encodeBytesGo_of_lt (by omega)]
      simp [encPadding]

/-! ## Order -/

/-- The markers of last groups: more padding, a smaller marker. -/
theorem marker_lt {k k' : Nat} (hk : k ≤ ENC_GROUP_SIZE) (h : k' < k) :
    ENC_MARKER - k.toUInt8 < ENC_MARKER - k'.toUInt8 := by
  have hall : ∀ i j : Fin 9, j < i → ENC_MARKER - i.val.toUInt8 < ENC_MARKER - j.val.toUInt8 := by
    decide
  exact hall ⟨k, by simp only [ENC_GROUP_SIZE] at hk; omega⟩ ⟨k', by simp only [ENC_GROUP_SIZE] at hk; omega⟩ h

theorem not_lt_zero_byte (b : UInt8) : ¬ b < 0 := by
  rw [UInt8.lt_iff_toNat_lt]
  simp

/-- The first group of any ascending encoding, whether more groups follow or
not: `G - len` is zero for a group that more bytes follow. -/
theorem encodeBytesGo_false_head (b : Bytes) :
    ∃ tail, encodeBytesGo false b =
      b.take ENC_GROUP_SIZE ++ (encPadding false (ENC_GROUP_SIZE - b.length) ++
        [ENC_MARKER - (ENC_GROUP_SIZE - b.length).toUInt8]) ++ tail := by
  by_cases hb : ENC_GROUP_SIZE ≤ b.length
  · refine ⟨encodeBytesGo false (b.drop ENC_GROUP_SIZE), ?_⟩
    rw [encodeBytesGo_of_le hb, Nat.sub_eq_zero_of_le hb]
    simp [encPadding]
  · refine ⟨[], ?_⟩
    rw [encodeBytesGo_of_lt (by omega), List.take_of_length_le (by omega)]
    simp

/-- A key shorter than a group, below `b`: its only group is below `b`'s
first group. -/
theorem encodeBytesGo_forkLt_of_short {a b : Bytes} (h : a < b) (ha : a.length < ENC_GROUP_SIZE) :
    ForkLt (encodeBytesGo false a) (encodeBytesGo false b) := by
  obtain ⟨tail, hbenc⟩ := encodeBytesGo_false_head b
  rw [encodeBytesGo_of_lt ha, hbenc]
  simp only [adjustBytesOrder_false, List.append_assoc]
  rcases lt_cases h with ⟨w, hw, rfl⟩ | hfork
  · -- `b` extends `a`: the padding of `a` meets `w`'s bytes, then the markers
    have hk : a.length ≤ ENC_GROUP_SIZE := ha.le
    have hw' : 0 < w.length := List.length_pos_iff.mpr hw
    rw [List.take_append, List.take_of_length_le hk, List.length_append]
    set z := w.take (ENC_GROUP_SIZE - a.length) ++
      encPadding false (ENC_GROUP_SIZE - (a.length + w.length)) with hz
    have hzlen : z.length = ENC_GROUP_SIZE - a.length := by
      simp only [hz, List.length_append, List.length_take, encPadding_length]
      omega
    have hge : ¬ z < List.replicate z.length 0 := not_lt_replicate not_lt_zero_byte z
    rw [hzlen] at hge
    rw [List.append_assoc, show w.take (ENC_GROUP_SIZE - a.length) ++
      (encPadding false (ENC_GROUP_SIZE - (a.length + w.length)) ++
        ([ENC_MARKER - (ENC_GROUP_SIZE - (a.length + w.length)).toUInt8] ++ tail)) =
      z ++ ((ENC_MARKER - (ENC_GROUP_SIZE - (a.length + w.length)).toUInt8) :: tail) by simp [hz]]
    refine ForkLt.prepend ?_ a
    rcases List.le_iff_lt_or_eq.mp hge with hlt | heq
    · exact (forkLt_of_lt_of_length_eq (by simp [hzlen]) hlt).append _ _
    · have hm := @marker_lt (ENC_GROUP_SIZE - a.length)
        (ENC_GROUP_SIZE - (a.length + w.length)) (by omega) (by omega)
      simp only [encPadding, Bool.false_eq_true, if_false, ← heq]
      exact (forkLt_cons_of_lt hm [] tail).prepend _
  · have hcut := hfork.take_take ENC_GROUP_SIZE (.inl ha.le)
    rw [List.take_of_length_le ha.le] at hcut
    simpa only [List.append_assoc] using hcut.append _ (encPadding false (ENC_GROUP_SIZE - b.length) ++
        [ENC_MARKER - (ENC_GROUP_SIZE - b.length).toUInt8] ++ tail)

/-- The encodings of `a < b` part at a byte that both have, `a`'s the
smaller. The induction is on the groups: equal first groups pass the
comparison to the rest of both keys. -/
theorem encodeBytesGo_forkLt {a b : Bytes} (h : a < b) :
    ForkLt (encodeBytesGo false a) (encodeBytesGo false b) := by
  induction hn : a.length using Nat.strong_induction_on generalizing a b with
  | _ n ih =>
    by_cases ha : ENC_GROUP_SIZE ≤ a.length
    · by_cases hb : ENC_GROUP_SIZE ≤ b.length
      · rw [encodeBytesGo_of_le ha, encodeBytesGo_of_le hb]
        simp only [adjustBytesOrder_false, List.append_assoc]
        by_cases ht : a.take ENC_GROUP_SIZE = b.take ENC_GROUP_SIZE
        · -- one first group: the rest of `a` is below the rest of `b`
          have hsplit : a.take ENC_GROUP_SIZE ++ a.drop ENC_GROUP_SIZE <
              b.take ENC_GROUP_SIZE ++ b.drop ENC_GROUP_SIZE := by
            rwa [List.take_append_drop, List.take_append_drop]
          rw [ht] at hsplit
          have hrest := ih (a.drop ENC_GROUP_SIZE).length
            (by simp only [List.length_drop, ENC_GROUP_SIZE] at ha ⊢; omega)
            (lt_of_append_left_lt hsplit) rfl
          rw [ht]
          exact hrest.prepend _ |>.prepend _
        · -- the first groups differ: `a` forks from `b` within them
          rcases lt_cases h with ⟨w, -, rfl⟩ | hfork
          · exact absurd (List.take_append_of_le_length ha).symm ht
          · exact (hfork.take_take ENC_GROUP_SIZE (.inr (.inr ht))).append _ _
      · rw [encodeBytesGo_of_le ha, encodeBytesGo_of_lt (show b.length < ENC_GROUP_SIZE by omega)]
        simp only [adjustBytesOrder_false, List.append_assoc]
        rcases lt_cases h with ⟨w, -, rfl⟩ | hfork
        · simp only [List.length_append] at hb
          omega
        · have hcut := hfork.take_take ENC_GROUP_SIZE (.inr (.inl (by omega)))
          rw [List.take_of_length_le (by omega : b.length ≤ ENC_GROUP_SIZE)] at hcut
          exact hcut.append _ _
    · exact encodeBytesGo_forkLt_of_short h (by omega)

theorem encodeBytes_forkLt {a b : Bytes} (h : a < b) :
    ForkLt (encodeBytes a) (encodeBytes b) :=
  encodeBytesGo_forkLt h

theorem encodeBytesDesc_forkLt {a b : Bytes} (h : a < b) :
    ForkLt (encodeBytesDesc b) (encodeBytesDesc a) := by
  simp only [encodeBytesDesc, encodeOrderBytes, encodeBytesGo_true]
  refine (encodeBytesGo_forkLt h).map_anti fun x y hxy => ?_
  rw [UInt8.lt_iff_toNat_lt] at hxy ⊢
  simp only [UInt8.toNat_not, UInt8.size]
  have := y.toNat_lt
  omega

/-! ## Decoding -/

/-- `!x` is `ENC_MARKER - x`: the codec crate's markers are this crate's. -/
theorem complement_eq_marker_sub (x : UInt8) : ~~~x = ENC_MARKER - x := by
  apply UInt8.toNat_inj.mp
  rw [UInt8.toNat_not, UInt8.toNat_sub_of_le _ _ (by
    rw [UInt8.le_iff_toNat_le]
    exact Nat.le_of_lt_succ (UInt8.toNat_lt _))]
  rfl

/-- The padding size of a marker, and the marker of a padding size. -/
theorem padSizeOf_marker (desc : Bool) {p : Nat} (hp : p ≤ ENC_GROUP_SIZE) :
    adjustBytesOrder [ENC_MARKER - p.toUInt8] desc =
      [if desc then ~~~(ENC_MARKER - p.toUInt8) else ENC_MARKER - p.toUInt8] ∧
    padSizeOf desc (if desc then ~~~(ENC_MARKER - p.toUInt8) else ENC_MARKER - p.toUInt8) = p := by
  have hall : ∀ i : Fin 9, ∀ d : Bool,
      padSizeOf d (if d then ~~~(ENC_MARKER - i.val.toUInt8) else ENC_MARKER - i.val.toUInt8) =
        i.val := by
    decide
  refine ⟨by cases desc <;> simp, hall ⟨p, by simp only [ENC_GROUP_SIZE] at hp; omega⟩ desc⟩

/-- A marker with a padding size of at most a group is the marker of that size. -/
theorem marker_of_padSizeOf {desc : Bool} {m : UInt8} (h : padSizeOf desc m ≤ ENC_GROUP_SIZE) :
    adjustBytesOrder [ENC_MARKER - (padSizeOf desc m).toUInt8] desc = [m] := by
  have hall : ∀ i : Fin 256, ∀ d : Bool, padSizeOf d (UInt8.ofNat i.val) ≤ 8 →
      adjustBytesOrder [ENC_MARKER - (padSizeOf d (UInt8.ofNat i.val)).toUInt8] d =
        [UInt8.ofNat i.val] := by
    decide +kernel
  have := hall ⟨m.toNat, m.toNat_lt⟩ desc
  simp only [UInt8.ofNat_toNat] at this
  exact this h

theorem any_ne_eq_false_iff (l : Bytes) (b : UInt8) :
    l.any (· != b) = false ↔ l = List.replicate l.length b := by
  rw [List.eq_replicate_iff]
  simp

/-- One chunk of `decode_bytes`: eight bytes and the marker after them. -/
theorem decodeBytesGo_chunk (desc : Bool) {bytes : Bytes} (hb : bytes.length = ENC_GROUP_SIZE)
    (marker : UInt8) (rest key : Bytes) :
    decodeBytesGo desc (bytes ++ marker :: rest) key =
      if padSizeOf desc marker = 0 then decodeBytesGo desc rest (key ++ bytes)
      else if padSizeOf desc marker > ENC_GROUP_SIZE then .error .keyPadding
      else if (bytes.drop (ENC_GROUP_SIZE - padSizeOf desc marker)).any
          (· != if desc then ~~~0 else 0) then .error .keyPadding
      else .ok (adjustBytesOrder (key ++ bytes.take (ENC_GROUP_SIZE - padSizeOf desc marker)) desc,
        rest) := by
  have hdrop : (bytes ++ marker :: rest).drop ENC_GROUP_SIZE = marker :: rest := by
    rw [List.drop_append, List.drop_of_length_le hb.le, hb, Nat.sub_self, List.drop_zero,
      List.nil_append]
  have htake : (bytes ++ marker :: rest).take ENC_GROUP_SIZE = bytes := List.take_left' hb
  rw [decodeBytesGo]
  split
  · rename_i h
    rw [hdrop] at h
    cases h
  · rename_i m r h
    rw [hdrop] at h
    cases h
    simp only [htake]

/-- Fewer than nine bytes hold no chunk. -/
theorem decodeBytesGo_short (desc : Bool) {data : Bytes} (h : data.length ≤ ENC_GROUP_SIZE)
    (key : Bytes) : decodeBytesGo desc data key = .error .eof := by
  rw [decodeBytesGo]
  split
  · rfl
  · rename_i m r hd
    rw [List.drop_of_length_le h] at hd
    cases hd

/-- `decode_bytes` reads back every encoding, whatever follows it. -/
theorem decodeBytesGo_encodeBytesGo (desc : Bool) (x s key : Bytes) :
    decodeBytesGo desc (encodeBytesGo desc x ++ s) key =
      .ok (adjustBytesOrder (key ++ adjustBytesOrder x desc) desc, s) := by
  induction hn : x.length using Nat.strong_induction_on generalizing x key with
  | _ n ih =>
    obtain ⟨hmarker, hpad⟩ := padSizeOf_marker desc (Nat.zero_le ENC_GROUP_SIZE)
    have h0 : (0 : Nat).toUInt8 = 0 := rfl
    by_cases hx : ENC_GROUP_SIZE ≤ x.length
    · -- a group with the marker of no padding, then the rest of the key
      have hrest := ih (x.drop ENC_GROUP_SIZE).length
        (by simp only [List.length_drop, ENC_GROUP_SIZE] at hx ⊢; omega)
        (x.drop ENC_GROUP_SIZE) (key ++ adjustBytesOrder (x.take ENC_GROUP_SIZE) desc) rfl
      simp only [h0, UInt8.sub_zero] at hmarker hpad
      rw [encodeBytesGo_of_le hx, hmarker, List.append_assoc, List.append_assoc,
        List.singleton_append, decodeBytesGo_chunk desc (by simp [ENC_GROUP_SIZE] at hx ⊢; omega),
        if_pos hpad, hrest, List.append_assoc, ← adjustBytesOrder_append, List.take_append_drop]
    · -- the last group: the bytes, the padding, the marker of its size
      have hp : ENC_GROUP_SIZE - x.length ≤ ENC_GROUP_SIZE := Nat.sub_le _ _
      obtain ⟨hm, hsize⟩ := padSizeOf_marker desc hp
      have hbytes : (adjustBytesOrder x desc ++ encPadding desc (ENC_GROUP_SIZE - x.length)).length =
          ENC_GROUP_SIZE := by simp; omega
      have hcut : ENC_GROUP_SIZE - (ENC_GROUP_SIZE - x.length) = x.length := by omega
      rw [encodeBytesGo_of_lt (by omega), hm, List.append_assoc, List.singleton_append,
        decodeBytesGo_chunk desc hbytes, hsize, if_neg (by simp [ENC_GROUP_SIZE] at hx ⊢; omega),
        if_neg (by omega), hcut, List.drop_left' (by simp), List.take_left' (by simp)]
      have hall : (encPadding desc (ENC_GROUP_SIZE - x.length)).any
          (· != if desc then ~~~0 else 0) = false := by
        rw [any_ne_eq_false_iff]
        simp [encPadding]
      rw [hall]
      rfl

/-- What `decode_bytes` accepts is an encoding followed by the bytes it
leaves: no other input is read as a key. -/
theorem encodeBytesGo_of_decodeBytesGo {desc : Bool} {data key r s : Bytes}
    (h : decodeBytesGo desc data key = .ok (r, s)) :
    ∃ x, r = adjustBytesOrder (key ++ adjustBytesOrder x desc) desc ∧
      data = encodeBytesGo desc x ++ s := by
  induction hn : data.length using Nat.strong_induction_on generalizing data key with
  | _ n ih =>
    by_cases hshort : data.length ≤ ENC_GROUP_SIZE
    · rw [decodeBytesGo_short desc hshort] at h
      cases h
    -- the chunk: eight bytes, the marker, and what follows
    obtain ⟨marker, rest, hd⟩ : ∃ m r, data.drop ENC_GROUP_SIZE = m :: r := by
      cases hd : data.drop ENC_GROUP_SIZE with
      | nil => exact absurd (List.drop_eq_nil_iff.mp hd) hshort
      | cons m r => exact ⟨m, r, rfl⟩
    have hsplit : data = data.take ENC_GROUP_SIZE ++ marker :: rest := by
      rw [← hd, List.take_append_drop]
    have hbytes : (data.take ENC_GROUP_SIZE).length = ENC_GROUP_SIZE := by
      rw [List.length_take]
      omega
    rw [hsplit, decodeBytesGo_chunk desc hbytes] at h
    by_cases hzero : padSizeOf desc marker = 0
    · -- no padding: the group is whole and the key goes on
      rw [if_pos hzero] at h
      have hrest : rest.length < n := by
        have := congrArg List.length hd
        simp only [List.length_drop, List.length_cons] at this
        omega
      obtain ⟨x, rfl, hx⟩ := ih rest.length hrest h rfl
      have hm : adjustBytesOrder [ENC_MARKER] desc = [marker] := by
        have := marker_of_padSizeOf (show padSizeOf desc marker ≤ ENC_GROUP_SIZE by omega)
        rwa [hzero, show (0 : Nat).toUInt8 = 0 from rfl, UInt8.sub_zero] at this
      refine ⟨adjustBytesOrder (data.take ENC_GROUP_SIZE) desc ++ x, ?_, ?_⟩
      · simp [adjustBytesOrder_append]
      · have hle : ENC_GROUP_SIZE ≤ (adjustBytesOrder (data.take ENC_GROUP_SIZE) desc ++ x).length := by
          simp [hbytes]
        rw [encodeBytesGo_of_le hle, List.take_left' (by simp [hbytes]),
          List.drop_left' (by simp [hbytes]), adjustBytesOrder_adjustBytesOrder, hm]
        conv_lhs => rw [hsplit, hx]
        simp
    rw [if_neg hzero] at h
    by_cases hbig : padSizeOf desc marker > ENC_GROUP_SIZE
    · rw [if_pos hbig] at h
      cases h
    rw [if_neg hbig] at h
    cases hany : ((data.take ENC_GROUP_SIZE).drop (ENC_GROUP_SIZE - padSizeOf desc marker)).any
        (· != if desc then ~~~0 else 0) with
    | true =>
      rw [hany, if_pos rfl] at h
      cases h
    | false =>
      -- the last group: what precedes the padding is the rest of the key
      rw [hany, if_neg Bool.false_ne_true] at h
      cases h
      have hp : padSizeOf desc marker ≤ ENC_GROUP_SIZE := by omega
      have hpad : (data.take ENC_GROUP_SIZE).drop (ENC_GROUP_SIZE - padSizeOf desc marker) =
          encPadding desc (padSizeOf desc marker) := by
        rw [any_ne_eq_false_iff] at hany
        rw [hany, encPadding]
        simp only [List.length_drop, hbytes]
        congr 1
        omega
      refine ⟨adjustBytesOrder ((data.take ENC_GROUP_SIZE).take
        (ENC_GROUP_SIZE - padSizeOf desc marker)) desc, by simp, ?_⟩
      have hlen : (adjustBytesOrder ((data.take ENC_GROUP_SIZE).take
          (ENC_GROUP_SIZE - padSizeOf desc marker)) desc).length =
          ENC_GROUP_SIZE - padSizeOf desc marker := by
        simp only [adjustBytesOrder_length, List.length_take, hbytes]
        omega
      rw [encodeBytesGo_of_lt (by omega), hlen, Nat.sub_sub_self hp,
        adjustBytesOrder_adjustBytesOrder, marker_of_padSizeOf hp, ← hpad]
      conv_lhs => rw [hsplit]
      simp

/-! ## Decoding in place -/

/-- `ptr::copy(src, dst, n)` within one buffer: memmove, every byte of
`[dst, dst + n)` takes the byte that stood at `src` plus its offset before the
copy. -/
def copyWithin (buf : Bytes) (src dst n : Nat) : Bytes :=
  buf.mapIdx fun j b => if dst ≤ j ∧ j < dst + n then buf.getD (src + (j - dst)) b else b

/-- mirrors components/tikv_util/src/codec/bytes.rs:222-275 (`decode_bytes_in_place`),
the loop from `write_offset` and `read_offset`: the group at `read_offset` is
moved down to `write_offset`, then its marker is read. On success the buffer
is cut to the key (`set_len`) and complemented when descending. -/
def decodeBytesInPlaceGo (desc : Bool) (data : Bytes) (writeOffset readOffset : Nat) :
    Except Error Bytes :=
  let markerOffset := readOffset + ENC_GROUP_SIZE
  if markerOffset ≥ data.length then .error .eof
  else
    let data' := copyWithin data readOffset writeOffset ENC_GROUP_SIZE
    let writeOffset' := writeOffset + ENC_GROUP_SIZE
    let readOffset' := readOffset + (ENC_GROUP_SIZE + 1)
    let padSize := padSizeOf desc (data'.getD markerOffset 0)
    if padSize > 0 then
      if padSize > ENC_GROUP_SIZE then .error .keyPadding
      else if (data'.drop (writeOffset' - padSize)).take padSize ≠ encPadding desc padSize then
        .error .keyPadding
      else .ok (adjustBytesOrder (data'.take (writeOffset' - padSize)) desc)
    else decodeBytesInPlaceGo desc data' writeOffset' readOffset'
termination_by data.length - readOffset
decreasing_by
  simp only [copyWithin, List.length_mapIdx, ENC_GROUP_SIZE] at *
  omega

/-- mirrors components/tikv_util/src/codec/bytes.rs:222 (`decode_bytes_in_place`) -/
def decodeBytesInPlace (data : Bytes) (desc : Bool) : Except Error Bytes :=
  decodeBytesInPlaceGo desc data 0 0

@[simp]
theorem copyWithin_length (buf : Bytes) (src dst n : Nat) :
    (copyWithin buf src dst n).length = buf.length := by
  simp [copyWithin]

/-- After the move, the buffer up to the end of the target is what stood
before the target and the source's bytes. -/
theorem copyWithin_take {buf : Bytes} {src dst n : Nat} (hsrc : src + n ≤ buf.length)
    (hdst : dst + n ≤ buf.length) :
    (copyWithin buf src dst n).take (dst + n) = buf.take dst ++ (buf.drop src).take n := by
  apply List.ext_getElem
  · simp only [List.length_take, copyWithin_length, List.length_append, List.length_drop]
    omega
  · intro j h₁ h₂
    simp only [List.length_take, copyWithin_length] at h₁
    simp only [List.getElem_take, copyWithin, List.getElem_mapIdx]
    by_cases hj : dst ≤ j
    · rw [if_pos ⟨hj, by omega⟩, List.getElem_append_right (by simp; omega), List.getElem_take,
        List.getElem_drop, List.getD_eq_getElem _ _ (by omega)]
      simp only [List.length_take]
      congr 1
      omega
    · rw [if_neg (by omega), List.getElem_append_left (by simp; omega), List.getElem_take]

/-- `copyWithin` byte by byte, for a source and a target inside the buffer. -/
theorem getElem?_copyWithin {buf : Bytes} {src dst n : Nat} (hsrc : src + n ≤ buf.length)
    (hdst : dst + n ≤ buf.length) (p : Nat) :
    (copyWithin buf src dst n)[p]? = if dst ≤ p ∧ p < dst + n then buf[src + (p - dst)]? else buf[p]? := by
  simp only [copyWithin, List.getElem?_mapIdx]
  by_cases hp : p < buf.length
  · rw [List.getElem?_eq_getElem hp]
    simp only [Option.map_some]
    split
    · rename_i h
      rw [List.getElem?_eq_getElem (by omega), List.getD_eq_getElem _ _ (by omega)]
    · rfl
  · rw [List.getElem?_eq_none (by omega)]
    simp only [Option.map_none]
    split
    · rw [List.getElem?_eq_none (by omega)]
    · rfl

/-- A move down leaves everything past the end of its source. -/
theorem copyWithin_drop {buf : Bytes} {src dst n : Nat} (hle : dst ≤ src) :
    (copyWithin buf src dst n).drop (src + n) = buf.drop (src + n) := by
  apply List.ext_getElem
  · simp
  · intro j h₁ h₂
    simp only [List.getElem_drop, copyWithin, List.getElem_mapIdx]
    rw [if_neg (by omega)]

theorem getD_of_drop_eq_cons {buf rest : Bytes} {i : Nat} {m : UInt8} (h : buf.drop i = m :: rest) :
    buf.getD i 0 = m := by
  rw [List.getD_eq_getElem?_getD, ← List.head?_drop, h]
  rfl

/-- The in-place decoder does what `decode_bytes` does: the buffer before
`write_offset` holds the groups moved so far and from `read_offset` on it is
untouched, and each turn moves the next group down over the last marker. -/
theorem decodeBytesInPlaceGo_eq {desc : Bool} {buf acc rest : Bytes} {w r : Nat} (hwr : w ≤ r)
    (hacc : buf.take w = acc) (hw : acc.length = w) (hrest : buf.drop r = rest) :
    decodeBytesInPlaceGo desc buf w r = (decodeBytesGo desc rest acc).map Prod.fst := by
  induction hn : rest.length using Nat.strong_induction_on generalizing buf acc rest w r with
  | _ n ih =>
    have hlen : rest.length = buf.length - r := by rw [← hrest, List.length_drop]
    rw [decodeBytesInPlaceGo]
    dsimp only
    by_cases hend : r + ENC_GROUP_SIZE ≥ buf.length
    · rw [if_pos hend, decodeBytesGo_short desc (by omega)]
      rfl
    rw [if_neg hend]
    -- the chunk at `read_offset`
    obtain ⟨marker, rest', hd⟩ : ∃ m r', rest.drop ENC_GROUP_SIZE = m :: r' := by
      cases hd : rest.drop ENC_GROUP_SIZE with
      | nil =>
        rw [List.drop_eq_nil_iff] at hd
        omega
      | cons m r' => exact ⟨m, r', rfl⟩
    have hbytes : (rest.take ENC_GROUP_SIZE).length = ENC_GROUP_SIZE := by
      rw [List.length_take]
      omega
    have hsplit : rest = rest.take ENC_GROUP_SIZE ++ marker :: rest' := by
      rw [← hd, List.take_append_drop]
    -- after the move: the key so far, the group, and the untouched marker and rest
    have hmoved : (copyWithin buf r w ENC_GROUP_SIZE).drop (r + ENC_GROUP_SIZE) = marker :: rest' := by
      rw [copyWithin_drop hwr, ← List.drop_drop, hrest, hd]
    have htake : (copyWithin buf r w ENC_GROUP_SIZE).take (w + ENC_GROUP_SIZE) =
        acc ++ rest.take ENC_GROUP_SIZE := by
      rw [copyWithin_take (by omega) (by omega), hacc, hrest]
    rw [getD_of_drop_eq_cons hmoved]
    conv_rhs => rw [hsplit, decodeBytesGo_chunk desc hbytes]
    by_cases hzero : padSizeOf desc marker = 0
    · rw [if_neg (by omega), if_pos hzero]
      have hnext : (copyWithin buf r w ENC_GROUP_SIZE).drop (r + (ENC_GROUP_SIZE + 1)) = rest' := by
        rw [← Nat.add_assoc, ← List.drop_drop, hmoved]
        rfl
      have hrest' : rest'.length < n := by
        have := congrArg List.length hd
        simp only [List.length_drop, List.length_cons] at this
        omega
      exact ih rest'.length hrest' (by omega) htake (by simp [hw, hbytes]) hnext rfl
    rw [if_pos (by omega), if_neg hzero]
    by_cases hbig : padSizeOf desc marker > ENC_GROUP_SIZE
    · rw [if_pos hbig, if_pos hbig]
      rfl
    rw [if_neg hbig, if_neg hbig]
    -- the padding is the end of the moved group
    have hseg : ((copyWithin buf r w ENC_GROUP_SIZE).drop
        (w + ENC_GROUP_SIZE - padSizeOf desc marker)).take (padSizeOf desc marker) =
        (rest.take ENC_GROUP_SIZE).drop (ENC_GROUP_SIZE - padSizeOf desc marker) := by
      rw [List.take_drop, Nat.sub_add_cancel (by omega), htake, List.drop_append, hw,
        List.drop_of_length_le (by omega), List.nil_append]
      congr 1
      omega
    have hkey : (copyWithin buf r w ENC_GROUP_SIZE).take (w + ENC_GROUP_SIZE - padSizeOf desc marker) =
        acc ++ (rest.take ENC_GROUP_SIZE).take (ENC_GROUP_SIZE - padSizeOf desc marker) := by
      have hcut : (copyWithin buf r w ENC_GROUP_SIZE).take (w + ENC_GROUP_SIZE - padSizeOf desc marker) =
          ((copyWithin buf r w ENC_GROUP_SIZE).take (w + ENC_GROUP_SIZE)).take
            (w + ENC_GROUP_SIZE - padSizeOf desc marker) := by
        rw [List.take_take, Nat.min_eq_left (by omega)]
      rw [hcut, htake, List.take_append, hw, List.take_of_length_le (by omega)]
      congr 2
      omega
    rw [hseg, hkey]
    have hseglen : ((rest.take ENC_GROUP_SIZE).drop (ENC_GROUP_SIZE - padSizeOf desc marker)).length =
        padSizeOf desc marker := by
      simp only [List.length_drop, hbytes]
      omega
    cases hany : ((rest.take ENC_GROUP_SIZE).drop (ENC_GROUP_SIZE - padSizeOf desc marker)).any
        (· != if desc then ~~~0 else 0) with
    | true =>
      have hne : (rest.take ENC_GROUP_SIZE).drop (ENC_GROUP_SIZE - padSizeOf desc marker) ≠
          encPadding desc (padSizeOf desc marker) := by
        intro heq
        rw [heq, encPadding] at hany
        simp at hany
      rw [if_pos hne, if_pos rfl]
      rfl
    | false =>
      rw [any_ne_eq_false_iff, hseglen] at hany
      rw [if_neg (not_not.mpr (by rw [hany]; rfl)), if_neg Bool.false_ne_true]
      rfl

/-- `decode_bytes_in_place` returns the key `decode_bytes` returns. -/
theorem decodeBytesInPlace_eq (data : Bytes) (desc : Bool) :
    decodeBytesInPlace data desc = (decodeBytes data desc).map Prod.fst :=
  decodeBytesInPlaceGo_eq (Nat.le_refl 0) rfl rfl List.drop_zero

/-! ## Both directions of the codec -/

theorem decodeBytes_encodeOrderBytes (x s : Bytes) (desc : Bool) :
    decodeBytes (encodeOrderBytes x desc ++ s) desc = .ok (x, s) := by
  rw [decodeBytes, encodeOrderBytes, decodeBytesGo_encodeBytesGo, List.nil_append,
    adjustBytesOrder_adjustBytesOrder]

theorem decodeBytesInPlace_encodeOrderBytes (x s : Bytes) (desc : Bool) :
    decodeBytesInPlace (encodeOrderBytes x desc ++ s) desc = .ok x := by
  rw [decodeBytesInPlace_eq, decodeBytes_encodeOrderBytes]
  rfl

theorem encodeOrderBytes_of_decodeBytes {y x s : Bytes} {desc : Bool}
    (h : decodeBytes y desc = .ok (x, s)) : y = encodeOrderBytes x desc ++ s := by
  obtain ⟨x', rfl, hy⟩ := encodeBytesGo_of_decodeBytesGo h
  rw [List.nil_append, adjustBytesOrder_adjustBytesOrder] at *
  exact hy

theorem encodeOrderBytes_of_decodeBytesInPlace {y x : Bytes} {desc : Bool}
    (h : decodeBytesInPlace y desc = .ok x) : ∃ s, y = encodeOrderBytes x desc ++ s := by
  rw [decodeBytesInPlace_eq] at h
  cases hd : decodeBytes y desc with
  | error e =>
    rw [hd] at h
    cases h
  | ok kr =>
    rw [hd] at h
    cases h
    exact ⟨kr.2, encodeOrderBytes_of_decodeBytes hd⟩

/-! ## The length of the first encoding -/

/-- mirrors components/tikv_util/src/codec/bytes.rs:149-161 (`encoded_bytes_len`),
the loop on `encoded[idx - ENC_GROUP_SIZE..]`: nine bytes for each group up to
the first marker that announces padding, or the whole buffer when it ends
first. The markers are not checked further. -/
def encodedBytesLenGo (desc : Bool) (data : Bytes) : Nat :=
  match _h : data.drop ENC_GROUP_SIZE with
  | [] => data.length
  | marker :: rest =>
    if (desc && marker != 0) || (!desc && marker != ENC_MARKER) then ENC_GROUP_SIZE + 1
    else ENC_GROUP_SIZE + 1 + encodedBytesLenGo desc rest
termination_by data.length
decreasing_by
  have hl := congrArg List.length _h
  simp only [List.length_drop, List.length_cons] at hl
  omega

/-- mirrors components/tikv_util/src/codec/bytes.rs:149 (`encoded_bytes_len`) -/
def encodedBytesLen (encoded : Bytes) (desc : Bool) : Nat :=
  encodedBytesLenGo desc encoded

/-- `encoded_bytes_len` stops at a marker exactly where `decode_bytes` finds padding. -/
theorem stops_iff_padSizeOf (desc : Bool) (m : UInt8) :
    ((desc && m != 0) || (!desc && m != ENC_MARKER)) = true ↔ padSizeOf desc m ≠ 0 := by
  cases desc with
  | true => simp [padSizeOf, ← UInt8.toNat_inj]
  | false =>
    have h := m.toNat_lt
    simp only [padSizeOf, Bool.false_and, Bool.not_false, Bool.true_and, Bool.false_or,
      bne_iff_ne, ne_eq, Bool.false_eq_true, if_false]
    rw [UInt8.toNat_sub_of_le _ _ (by rw [UInt8.le_iff_toNat_le]; exact Nat.le_of_lt_succ h),
      ← UInt8.toNat_inj]
    simp only [ENC_MARKER, UInt8.reduceToNat]
    omega

theorem encodedBytesLenGo_short (desc : Bool) {data : Bytes}
    (h : data.length ≤ ENC_GROUP_SIZE) : encodedBytesLenGo desc data = data.length := by
  rw [encodedBytesLenGo]
  split
  · rfl
  · rename_i m r hd
    rw [List.drop_of_length_le h] at hd
    cases hd

/-- One chunk of `encoded_bytes_len`: eight bytes and the marker after them. -/
theorem encodedBytesLenGo_chunk (desc : Bool) {bytes : Bytes} (hb : bytes.length = ENC_GROUP_SIZE)
    (marker : UInt8) (rest : Bytes) :
    encodedBytesLenGo desc (bytes ++ marker :: rest) =
      if padSizeOf desc marker ≠ 0 then ENC_GROUP_SIZE + 1
      else ENC_GROUP_SIZE + 1 + encodedBytesLenGo desc rest := by
  have hdrop : (bytes ++ marker :: rest).drop ENC_GROUP_SIZE = marker :: rest := by
    rw [List.drop_append, List.drop_of_length_le hb.le, hb, Nat.sub_self, List.drop_zero,
      List.nil_append]
  rw [encodedBytesLenGo]
  split
  · rename_i h
    rw [hdrop] at h
    cases h
  · rename_i m r h
    rw [hdrop] at h
    cases h
    by_cases hs : padSizeOf desc marker ≠ 0
    · rw [if_pos ((stops_iff_padSizeOf desc marker).mpr hs), if_pos hs]
    · rw [if_neg (mt (stops_iff_padSizeOf desc marker).mp hs), if_neg hs]

/-- On an encoding followed by anything, the scan measures the encoding. -/
theorem encodedBytesLenGo_encodeBytesGo (desc : Bool) (x s : Bytes) :
    encodedBytesLenGo desc (encodeBytesGo desc x ++ s) = (encodeBytesGo desc x).length := by
  induction hn : x.length using Nat.strong_induction_on generalizing x with
  | _ n ih =>
    by_cases hx : ENC_GROUP_SIZE ≤ x.length
    · -- a group with the marker of no padding, then the rest of the key
      obtain ⟨hmarker, hpad⟩ := padSizeOf_marker desc (Nat.zero_le ENC_GROUP_SIZE)
      simp only [show (0 : Nat).toUInt8 = 0 from rfl, UInt8.sub_zero] at hmarker hpad
      have hrest := ih (x.drop ENC_GROUP_SIZE).length
        (by simp only [List.length_drop, ENC_GROUP_SIZE] at hx ⊢; omega) (x.drop ENC_GROUP_SIZE) rfl
      rw [encodeBytesGo_of_le hx, hmarker, List.append_assoc, List.append_assoc,
        List.singleton_append, encodedBytesLenGo_chunk desc (by simp [ENC_GROUP_SIZE] at hx ⊢; omega),
        if_neg (by simp [hpad]), hrest]
      simp only [List.length_append, adjustBytesOrder_length, List.length_take, List.length_cons,
        List.length_nil]
      simp only [ENC_GROUP_SIZE] at hx ⊢
      omega
    · -- the last group: its marker announces the padding
      have hp : ENC_GROUP_SIZE - x.length ≤ ENC_GROUP_SIZE := Nat.sub_le _ _
      obtain ⟨hm, hsize⟩ := padSizeOf_marker desc hp
      have hbytes : (adjustBytesOrder x desc ++ encPadding desc (ENC_GROUP_SIZE - x.length)).length =
          ENC_GROUP_SIZE := by simp; omega
      rw [encodeBytesGo_of_lt (by omega), hm, List.append_assoc, List.singleton_append,
        encodedBytesLenGo_chunk desc hbytes, hsize, if_pos (by simp [ENC_GROUP_SIZE] at hx ⊢; omega)]
      simp [ENC_GROUP_SIZE] at hx ⊢
      omega

/-- Wherever `decode_bytes` succeeds, `encoded_bytes_len` gives the number of
bytes it read. -/
theorem encodedBytesLen_of_decodeBytes {y k r : Bytes} {desc : Bool}
    (h : decodeBytes y desc = .ok (k, r)) : encodedBytesLen y desc = y.length - r.length := by
  obtain ⟨x, -, rfl⟩ := encodeBytesGo_of_decodeBytesGo h
  rw [encodedBytesLen, encodedBytesLenGo_encodeBytesGo, List.length_append]
  omega

/-! ## Checking an encoding against a key

`is_encoded_from` does not decode: it cuts the encoding into chunks of nine
bytes and checks each against the group the encoder would write for the
key's chunk at the same place, the last against the key's remainder. -/

/-- The nine bytes `encode_bytes` writes for a group `c` of at most eight
bytes: the group, its padding, and the marker of the padding size. -/
def encodedGroup (desc : Bool) (c : Bytes) : Bytes :=
  adjustBytesOrder c desc ++ encPadding desc (ENC_GROUP_SIZE - c.length) ++
    adjustBytesOrder [ENC_MARKER - (ENC_GROUP_SIZE - c.length).toUInt8] desc

/-- mirrors components/tikv_util/src/codec/bytes.rs:289-308 (`check_single_chunk`).
The chunk always has nine bytes, so `encoded[ENC_GROUP_SIZE]` is its last. -/
def checkSingleChunk (desc : Bool) (encoded raw : Bytes) : Bool :=
  let len := raw.length
  let pad := (ENC_GROUP_SIZE - len).toUInt8
  if desc then
    encoded[ENC_GROUP_SIZE]? == some (~~~(ENC_MARKER - pad)) &&
      ((encoded.take len).zip raw).all (fun (enc, raw) => enc == ~~~raw) &&
      ((encoded.take (encoded.length - 1)).drop len).all (· == ENC_MARKER)
  else
    encoded[ENC_GROUP_SIZE]? == some (ENC_MARKER - pad) && encoded.take len == raw &&
      ((encoded.take (encoded.length - 1)).drop len).all (· == ~~~ENC_MARKER)

/-- mirrors components/tikv_util/src/codec/bytes.rs:286-339 (`is_encoded_from`).
`rchunks_exact(9)` with no remainder yields the chunks of `chunks_exact(9)`
back to front; the one taken by `next()` is the last, and `size_hint` of
the rest is their number. -/
def isEncodedFrom (encoded raw : Bytes) (desc : Bool) : Bool :=
  if encoded.length % (ENC_GROUP_SIZE + 1) != 0 then false
  else
    let rawChunks := raw.chunksExact ENC_GROUP_SIZE
    match (encoded.chunksExact (ENC_GROUP_SIZE + 1)).reverse with
    | [] => false
    | encodedChunk :: revEncodedChunks =>
      if !checkSingleChunk desc encodedChunk (raw.chunksExactRemainder ENC_GROUP_SIZE) then false
      else if revEncodedChunks.length != rawChunks.length then false
      else (revEncodedChunks.zip rawChunks.reverse).all fun (e, r) => checkSingleChunk desc e r

theorem encodedGroup_length (desc : Bool) {c : Bytes} (hc : c.length ≤ ENC_GROUP_SIZE) :
    (encodedGroup desc c).length = ENC_GROUP_SIZE + 1 := by
  simp only [encodedGroup, List.length_append, adjustBytesOrder_length, encPadding_length,
    List.length_singleton]
  omega

/-- The encoding is the groups of the whole chunks of the key, then the group of its remainder. -/
theorem encodeBytesGo_eq_flatten (desc : Bool) (raw : Bytes) :
    encodeBytesGo desc raw =
      ((raw.chunksExact ENC_GROUP_SIZE).map (encodedGroup desc)).flatten ++
        encodedGroup desc (raw.chunksExactRemainder ENC_GROUP_SIZE) := by
  induction raw using List.chunksExact.induct ENC_GROUP_SIZE with
  | case1 raw hlen ih =>
    have hfull : encodedGroup desc (raw.take ENC_GROUP_SIZE) =
        adjustBytesOrder (raw.take ENC_GROUP_SIZE) desc ++ adjustBytesOrder [ENC_MARKER] desc := by
      have h0 : ENC_GROUP_SIZE - (raw.take ENC_GROUP_SIZE).length = 0 := by simp; omega
      simp only [encodedGroup, h0]
      simp [encPadding]
    rw [encodeBytesGo_of_le hlen.2, List.chunksExact, dif_pos hlen, List.map_cons,
      List.flatten_cons, ih, List.chunksExactRemainder_drop hlen.1 hlen.2, hfull]
    simp only [List.append_assoc]
  | case2 raw hlen =>
    have hlt : raw.length < ENC_GROUP_SIZE := by simp only [ENC_GROUP_SIZE] at hlen ⊢; omega
    rw [encodeBytesGo_of_lt hlt, List.chunksExact_of_lt hlt, List.chunksExactRemainder_of_lt hlt]
    rfl

theorem all_beq_iff_eq_replicate (l : Bytes) (b : UInt8) :
    l.all (· == b) = true ↔ l = List.replicate l.length b := by
  rw [List.eq_replicate_iff]
  simp

theorem all_zip_complement_iff {x c : Bytes} (hx : x.length = c.length) :
    (x.zip c).all (fun (enc, raw) => enc == ~~~raw) = true ↔ x = c.map (~~~ ·) := by
  rw [List.all_eq_true]
  constructor
  · intro h
    exact List.eq_map_of_forall_mem_zip hx fun p hp => by simpa using h p hp
  · rintro rfl p hp
    simpa using List.forall_mem_zip_map (~~~ ·) c p hp

/-- `check_single_chunk` on a chunk cut as a group, a padding and a marker:
each part is checked against what the encoder writes there. -/
theorem checkSingleChunk_append (desc : Bool) {x y c : Bytes} (m : UInt8)
    (hx : x.length = c.length) (hy : y.length = ENC_GROUP_SIZE - c.length)
    (hc : c.length ≤ ENC_GROUP_SIZE) :
    checkSingleChunk desc (x ++ y ++ [m]) c = true ↔
      x = adjustBytesOrder c desc ∧ y = encPadding desc (ENC_GROUP_SIZE - c.length) ∧
        [m] = adjustBytesOrder [ENC_MARKER - (ENC_GROUP_SIZE - c.length).toUInt8] desc := by
  have hmarker : (x ++ y ++ [m])[ENC_GROUP_SIZE]? = some m := by
    rw [List.getElem?_append_right (by simp only [List.length_append]; omega)]
    simp only [List.length_append, hx, hy]
    simp [show ENC_GROUP_SIZE - (c.length + (ENC_GROUP_SIZE - c.length)) = 0 by omega]
  have hgroup : (x ++ y ++ [m]).take c.length = x := by
    rw [List.append_assoc, List.take_left' hx]
  have hpadding : ((x ++ y ++ [m]).take ((x ++ y ++ [m]).length - 1)).drop c.length = y := by
    rw [List.length_append, List.length_singleton, Nat.add_sub_cancel, List.take_left' rfl,
      List.drop_left' hx]
  have hasc : (~~~ENC_MARKER : UInt8) = 0 := by decide
  have hdesc : ENC_MARKER = ~~~0 := by decide
  cases desc with
  | false =>
    simp only [checkSingleChunk, hmarker, hgroup, hpadding, Bool.false_eq_true, if_false,
      Bool.and_eq_true, beq_iff_eq, Option.some.injEq, adjustBytesOrder_false, encPadding,
      all_beq_iff_eq_replicate, hy, List.cons.injEq, and_true, hasc]
    exact ⟨fun ⟨⟨h1, h2⟩, h3⟩ => ⟨h2, h3, h1⟩, fun ⟨h2, h3, h1⟩ => ⟨⟨h1, h2⟩, h3⟩⟩
  | true =>
    simp only [checkSingleChunk, hmarker, hgroup, hpadding, if_true,
      Bool.and_eq_true, beq_iff_eq, Option.some.injEq, adjustBytesOrder_true, encPadding,
      all_beq_iff_eq_replicate, all_zip_complement_iff hx, hy, List.map_cons, List.map_nil, List.cons.injEq, and_true, ← hdesc]
    exact ⟨fun ⟨⟨h1, h2⟩, h3⟩ => ⟨h2, h3, h1⟩, fun ⟨h2, h3, h1⟩ => ⟨⟨h1, h2⟩, h3⟩⟩

/-- `check_single_chunk` accepts a chunk of nine bytes exactly when it is
the group the encoder writes for the raw chunk. -/
theorem checkSingleChunk_iff (desc : Bool) {e c : Bytes} (he : e.length = ENC_GROUP_SIZE + 1)
    (hc : c.length ≤ ENC_GROUP_SIZE) : checkSingleChunk desc e c = true ↔ e = encodedGroup desc c := by
  -- cut the chunk where the encoder's group has its parts
  obtain ⟨x, y, m, rfl, hx, hy⟩ : ∃ x y m, e = x ++ y ++ [m] ∧ x.length = c.length ∧
      y.length = ENC_GROUP_SIZE - c.length := by
    have hne : e ≠ [] := by
      intro h
      simp [h] at he
    refine ⟨e.dropLast.take c.length, e.dropLast.drop c.length, e.getLast hne, ?_, ?_, ?_⟩
    · rw [List.take_append_drop, List.dropLast_append_getLast]
    · simp only [List.length_take, List.length_dropLast, he]
      omega
    · simp only [List.length_drop, List.length_dropLast, he]
      omega
  rw [checkSingleChunk_append desc m hx hy hc, encodedGroup]
  constructor
  · rintro ⟨rfl, rfl, h⟩
    rw [h]
  · intro h
    obtain ⟨hxy, hm⟩ := List.append_inj h (by simp [hx, hy])
    obtain ⟨hx', hy'⟩ := List.append_inj hxy (by simp [hx])
    exact ⟨hx', hy', hm⟩

/-- What `is_encoded_from` checks, as a statement. -/
theorem isEncodedFrom_eq_true_iff (e r : Bytes) (desc : Bool) :
    isEncodedFrom e r desc = true ↔
      e.length % (ENC_GROUP_SIZE + 1) = 0 ∧
        ∃ ec rest, (e.chunksExact (ENC_GROUP_SIZE + 1)).reverse = ec :: rest ∧
          checkSingleChunk desc ec (r.chunksExactRemainder ENC_GROUP_SIZE) = true ∧
          rest.length = (r.chunksExact ENC_GROUP_SIZE).length ∧
          ∀ p ∈ rest.zip (r.chunksExact ENC_GROUP_SIZE).reverse, checkSingleChunk desc p.1 p.2 = true := by
  rw [isEncodedFrom]
  split
  · rename_i hmod
    simp at hmod
    simp [hmod]
  · rename_i hmod
    simp at hmod
    split
    · rename_i hnil
      simp [hnil]
    · rename_i ec rest heq
      simp [heq, hmod]

/-- `is_encoded_from` accepts exactly the encoding of the key: its last
chunk against the remainder of the key, the other chunks, as many as the
key's whole chunks, each against its partner. -/
theorem isEncodedFrom_iff (e r : Bytes) (desc : Bool) :
    isEncodedFrom e r desc = true ↔ e = encodeOrderBytes r desc := by
  have hg : 0 < ENC_GROUP_SIZE := by decide
  have hcs : ∀ c ∈ (r.chunksExact ENC_GROUP_SIZE).reverse, c.length ≤ ENC_GROUP_SIZE :=
    fun c hc => (List.length_of_mem_chunksExact r (List.mem_reverse.mp hc)).le
  have hrem : (r.chunksExactRemainder ENC_GROUP_SIZE).length ≤ ENC_GROUP_SIZE := by
    rw [List.length_chunksExactRemainder]
    exact (Nat.mod_lt _ hg).le
  -- the encoding is the groups of the key's chunks, then the group of its remainder
  have hgroups : ∀ g ∈ (r.chunksExact ENC_GROUP_SIZE).map (encodedGroup desc) ++
      [encodedGroup desc (r.chunksExactRemainder ENC_GROUP_SIZE)], g.length = ENC_GROUP_SIZE + 1 := by
    intro g hg'
    rcases List.mem_append.mp hg' with hg' | hg'
    · obtain ⟨c, hc, rfl⟩ := List.mem_map.mp hg'
      exact encodedGroup_length desc (List.length_of_mem_chunksExact r hc).le
    · rw [List.mem_singleton.mp hg']
      exact encodedGroup_length desc hrem
  have henc : encodeOrderBytes r desc = ((r.chunksExact ENC_GROUP_SIZE).map (encodedGroup desc) ++
      [encodedGroup desc (r.chunksExactRemainder ENC_GROUP_SIZE)]).flatten := by
    rw [encodeOrderBytes, encodeBytesGo_eq_flatten, List.flatten_append, List.flatten_singleton]
  rw [isEncodedFrom_eq_true_iff]
  constructor
  · rintro ⟨hmod, ec, rest, hchunks, hlast, hlen, hpairs⟩
    have hmem : ∀ g ∈ e.chunksExact (ENC_GROUP_SIZE + 1), g.length = ENC_GROUP_SIZE + 1 :=
      fun g hg' => List.length_of_mem_chunksExact e hg'
    have hchunks' : e.chunksExact (ENC_GROUP_SIZE + 1) = rest.reverse ++ [ec] := by
      rw [← List.reverse_reverse (e.chunksExact _), hchunks, List.reverse_cons]
    have hec : ec = encodedGroup desc (r.chunksExactRemainder ENC_GROUP_SIZE) :=
      (checkSingleChunk_iff desc (hmem ec (by simp [hchunks'])) hrem).mp hlast
    -- each chunk before the last is the group of its partner among the key's chunks
    have hrest : rest = (r.chunksExact ENC_GROUP_SIZE).reverse.map (encodedGroup desc) := by
      refine List.eq_map_of_forall_mem_zip (by simpa using hlen) fun p hp => ?_
      obtain ⟨h1, h2⟩ := List.of_mem_zip hp
      exact (checkSingleChunk_iff desc (hmem p.1 (by simp [hchunks', h1])) (hcs p.2 h2)).mp
        (hpairs p hp)
    have hnil : e.chunksExactRemainder (ENC_GROUP_SIZE + 1) = [] := by
      rw [← List.length_eq_zero_iff, List.length_chunksExactRemainder, hmod]
    rw [henc, ← List.flatten_chunksExact_append (Nat.succ_pos _) e, hnil, List.append_nil,
      hchunks', hrest, hec, List.map_reverse, List.reverse_reverse]
  · intro he
    have hchunks : e.chunksExact (ENC_GROUP_SIZE + 1) =
        (r.chunksExact ENC_GROUP_SIZE).map (encodedGroup desc) ++
          [encodedGroup desc (r.chunksExactRemainder ENC_GROUP_SIZE)] := by
      rw [he, henc, List.chunksExact_flatten (Nat.succ_pos _) hgroups]
    refine ⟨?_, encodedGroup desc (r.chunksExactRemainder ENC_GROUP_SIZE),
      ((r.chunksExact ENC_GROUP_SIZE).map (encodedGroup desc)).reverse, ?_, ?_, ?_, ?_⟩
    · rw [he, henc, List.length_flatten_of_forall hgroups, Nat.mul_mod_right]
    · rw [hchunks, List.reverse_append, List.reverse_singleton, List.singleton_append]
    · exact (checkSingleChunk_iff desc (encodedGroup_length desc hrem) hrem).mpr rfl
    · simp
    · intro p hp
      rw [← List.map_reverse] at hp
      have hpair := List.forall_mem_zip_map (encodedGroup desc) _ p hp
      have hc := hcs p.2 (List.of_mem_zip hp).2
      exact (checkSingleChunk_iff desc (by rw [hpair]; exact encodedGroup_length desc hc) hc).mpr hpair

end Tikv.Codec
