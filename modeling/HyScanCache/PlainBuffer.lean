import HyScanCache.Buffer

/-!
# A plain buffer

A type of buffers that keeps the laws of `HyScanBuffer` and `HyScanBufferWrap`, to run the programs on.
-/

namespace HyScanCache

/-- A buffer that has memory of its own, and grows to any size, or lies in memory it was given. -/
inductive PlainBuffer where
  | own (data : Bytes) (lt : data.length < 2 ^ 32)
  | wrapped (memory : Bytes) (size : UInt32) (le : size.toNat ≤ memory.length)

namespace PlainBuffer

/-- The bytes of the buffer. -/
def data : PlainBuffer → Bytes
  | own data _ => data
  | wrapped memory size _ => memory.take size.toNat

/-- Take a size, if there is room. -/
def resize : PlainBuffer → UInt32 → Option PlainBuffer
  | own .., n => some (own (List.replicate n.toNat 0) (by rw [List.length_replicate]; exact n.toNat_lt))
  | wrapped memory .., n => if h : n.toNat ≤ memory.length then some (wrapped memory n h) else none

/-- Write from the front on. -/
def write : PlainBuffer → Bytes → PlainBuffer
  | own data lt, src => if h : src.length < 2 ^ 32 then own src h else own data lt
  | wrapped memory size le, src =>
    if h : size.toNat ≤ (src ++ memory.drop src.length).length then
      wrapped (src ++ memory.drop src.length) size h
    else
      wrapped memory size le

theorem length_data_lt (b : PlainBuffer) : b.data.length < 2 ^ 32 := by
  cases b with
  | own data lt => exact lt
  | wrapped memory size le =>
    have := size.toNat_lt
    rw [data, List.length_take]
    omega

theorem length_resize {b b' : PlainBuffer} {n : UInt32} (h : b.resize n = some b') : b'.data.length = n.toNat := by
  cases b with
  | own data lt =>
    cases h
    exact List.length_replicate
  | wrapped memory size le =>
    rw [resize] at h
    split at h
    · next hle =>
      cases h
      rw [data, List.length_take, Nat.min_eq_left hle]
    · cases h

theorem data_write {b : PlainBuffer} {src : Bytes} (h : src.length = b.data.length) : (b.write src).data = src := by
  cases b with
  | own data lt => rw [write, dif_pos (by rw [h]; exact lt), PlainBuffer.data]
  | wrapped memory size le =>
    have hlen : src.length = size.toNat := by rw [h, data, List.length_take, Nat.min_eq_left le]
    rw [write, dif_pos (by rw [List.length_append]; omega), data, ← hlen, List.take_left]

/-- Be given data. -/
def give : PlainBuffer → Bytes → PlainBuffer
  | own data lt, src => if h : src.length < 2 ^ 32 then own src h else own data lt
  | wrapped memory size le, src =>
    if h : src.length ≤ memory.length ∧ src.length < 2 ^ 32 then
      wrapped (src ++ memory.drop src.length) (guint32Size src)
        (by rw [toNat_guint32Size h.2, List.length_append]; omega)
    else
      wrapped memory size le

/-- Lie in the memory `m`. -/
def lieIn (m : Bytes) : PlainBuffer :=
  wrapped m (guint32Size m) (by rw [guint32Size, UInt32.toNat_ofNat']; exact Nat.mod_le _ _)

/-- The memory the buffer lies in. -/
def under : PlainBuffer → Bytes
  | own data _ => data
  | wrapped memory .. => memory

/-- A buffer without data. -/
def empty : PlainBuffer := own [] (by decide)

instance : HyScanBuffer PlainBuffer where
  bytes b := b.data
  setDataSize b n := b.resize n
  fill b src := b.write src
  length_bytes_lt b := b.length_data_lt
  length_setDataSize _ _ _ h := PlainBuffer.length_resize h
  bytes_fill _ _ h := PlainBuffer.data_write h

theorem data_lieIn {m : Bytes} (h : m.length < 2 ^ 32) : (lieIn m).data = m := by
  rw [lieIn, data, toNat_guint32Size h, List.take_length]

theorem under_write_resize {m src : Bytes} {n : UInt32} {b : PlainBuffer} (h : (lieIn m).resize n = some b)
    (hlen : src.length = n.toNat) : (b.write src).under = src ++ m.drop src.length := by
  rw [lieIn, resize] at h
  split at h
  · cases h
    rw [write, dif_pos (by rw [List.length_append]; omega), under]
  · cases h

theorem data_give {b : PlainBuffer} {src : Bytes} (hg : Grows b) (h : src.length < 2 ^ 32) :
    (b.give src).data = src := by
  cases b with
  | own data lt => rw [give, dif_pos h, PlainBuffer.data]
  | wrapped memory size le =>
    have hroom : src.length ≤ memory.length := by
      have := hg (guint32Size src)
      by_contra hle
      have hn : resize (wrapped memory size le) (guint32Size src) = none := by
        rw [resize, dif_neg (by rw [toNat_guint32Size h]; exact hle)]
      rw [show setDataSize (wrapped memory size le) (guint32Size src) = none from hn] at this
      cases this
    rw [give, dif_pos ⟨hroom, h⟩, data, toNat_guint32Size h, List.take_left]

instance : HyScanBufferWrap PlainBuffer where
  wrap _ m := lieIn m
  memory b := b.under
  set b data := b.give data
  bytes_wrap _ _ h := data_lieIn h
  memory_wrap _ _ := rfl
  setDataSize_wrap _ m n h := by
    have hs : (lieIn m).resize n = some (wrapped m n h) := by rw [lieIn, resize, dif_pos h]
    rw [show setDataSize (lieIn m) n = some (wrapped m n h) from hs]
    rfl
  memory_fill _ _ _ _ _ h hlen := under_write_resize h hlen
  bytes_set _ _ hg h := data_give hg h

end PlainBuffer

end HyScanCache
