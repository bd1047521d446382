import HyScanCache.Memory

/-!
# What the cache relies on of `HyScanBuffer`

`HyScanBuffer` belongs to another library.  The cache reads the bytes a buffer holds, sets the size of a
buffer, which the buffer may refuse, and writes as many bytes through the pointer it is given.
-/

namespace HyScanCache

/-- A type of buffers. -/
class HyScanBuffer (β : Type) where
  /-- `hyscan_buffer_get`: the bytes of the buffer, as many as the size it returns. -/
  bytes : β → Bytes
  /-- `hyscan_buffer_set_data_size`; `none` when the buffer refuses the size, and is left as it was. -/
  setDataSize : β → UInt32 → Option β
  /-- The buffer after a `memcpy` to the pointer `hyscan_buffer_get` returns. -/
  fill : β → Bytes → β
  /-- Sizes are `guint32`. -/
  length_bytes_lt : ∀ b, (bytes b).length < 2 ^ 32
  /-- A buffer that takes a size has it. -/
  length_setDataSize : ∀ b n b', setDataSize b n = some b' → (bytes b').length = n.toNat
  /-- A buffer written over its whole size holds what was written. -/
  bytes_fill : ∀ b src, src.length = (bytes b).length → bytes (fill b src) = src

export HyScanBuffer (bytes setDataSize fill)

/-- A buffer takes any size. -/
def Grows {β : Type} [HyScanBuffer β] (b : β) : Prop := ∀ n, (setDataSize b n).isSome

/-- What the remote cache relies on besides: a buffer can be made to lie in memory of somebody else, and it can
be given a copy of some data. -/
class HyScanBufferWrap (β : Type) extends HyScanBuffer β where
  /-- `hyscan_buffer_wrap`: the buffer lies in this memory. -/
  wrap : β → Bytes → β
  /-- The memory a buffer lies in. -/
  memory : β → Bytes
  /-- `hyscan_buffer_set`: the buffer is given a copy of the data. -/
  set : β → Bytes → β
  bytes_wrap : ∀ b m, m.length < 2 ^ 32 → bytes (wrap b m) = m
  memory_wrap : ∀ b m, memory (wrap b m) = m
  /-- A wrapped buffer takes the sizes its memory has room for. -/
  setDataSize_wrap : ∀ b m n, n.toNat ≤ m.length → (setDataSize (wrap b m) n).isSome
  /-- What is written to a wrapped buffer is written to the front of its memory. -/
  memory_fill : ∀ b m n b' src, setDataSize (wrap b m) n = some b' → src.length = n.toNat →
    memory (fill b' src) = src ++ m.drop src.length
  bytes_set : ∀ b data, Grows b → data.length < 2 ^ 32 → bytes (set b data) = data

export HyScanBufferWrap (wrap memory)

/-- A pointer to a buffer of the caller. -/
abbrev BufferPtr := Option ℕ

/-- The buffers of a caller, by address. -/
abbrev Buffers (β : Type) := ℕ → β

/-- The bytes of a buffer given by a pointer that may be null: no bytes at the null pointer. -/
def givenBytes {β : Type} [HyScanBuffer β] : Option β → Bytes
  | none => []
  | some b => bytes b

theorem length_givenBytes_lt {β : Type} [HyScanBuffer β] (b : Option β) : (givenBytes b).length < 2 ^ 32 := by
  cases b with
  | none => simp [givenBytes]
  | some b => exact HyScanBuffer.length_bytes_lt b

/-- Size a buffer for a part of a value and write the part; `none` when the buffer refuses the size. -/
def deliverPart {β : Type} [HyScanBuffer β] (bufs : Buffers β) (buffer : BufferPtr) (part : Bytes) :
    Option (Buffers β) :=
  match buffer with
  | none => some bufs
  | some b => (setDataSize (bufs b) (guint32Size part)).map fun buf => Function.update bufs b (fill buf part)

/-- Split a value after `size1` bytes over two buffers: whether both took their sizes, and the buffers. -/
def deliver {β : Type} [HyScanBuffer β] (bufs : Buffers β) (buffer1 buffer2 : BufferPtr) (size1 : ℕ)
    (value : Bytes) : Bool × Buffers β :=
  match deliverPart bufs buffer1 (value.take size1) with
  | none => (false, bufs)
  | some bufs =>
    match deliverPart bufs buffer2 (value.drop size1) with
    | none => (false, bufs)
    | some bufs => (true, bufs)

theorem toNat_guint32Size {data : Bytes} (h : data.length < 2 ^ 32) :
    (guint32Size data).toNat = data.length := by
  simp only [guint32Size, UInt32.toNat_ofNat']
  exact Nat.mod_eq_of_lt h

theorem guint32Size_pos {data : Bytes} (h : data.length < 2 ^ 32) : guint32Size data > 0 ↔ data ≠ [] := by
  rw [gt_iff_lt, UInt32.lt_iff_toNat_lt, toNat_guint32Size h, ← List.length_pos_iff]
  rfl

section Deliver

variable {β : Type} [HyScanBuffer β] {bufs bufs' : Buffers β} {buffer1 buffer2 : BufferPtr} {b : ℕ} {part : Bytes}

theorem deliverPart_some (hlt : part.length < 2 ^ 32) (h : deliverPart bufs (some b) part = some bufs') :
    bytes (bufs' b) = part ∧ ∀ b', b' ≠ b → bufs' b' = bufs b' := by
  obtain ⟨buf, hset, rfl⟩ := Option.map_eq_some_iff.1 h
  have hlen := HyScanBuffer.length_setDataSize _ _ _ hset
  rw [toNat_guint32Size hlt] at hlen
  refine ⟨?_, fun b' hb => Function.update_of_ne hb _ _⟩
  rw [Function.update_self, HyScanBuffer.bytes_fill _ _ hlen.symm]

/-- **A value that was delivered is in the buffers**, split after `size1` bytes. -/
theorem deliver_true {size1 : ℕ} {value : Bytes} (hlt : value.length < 2 ^ 32) (hne : buffer2 ≠ some b)
    (h : deliver bufs (some b) buffer2 size1 value = (true, bufs')) :
    bytes (bufs' b) = value.take size1 ∧ ∀ b2, buffer2 = some b2 → bytes (bufs' b2) = value.drop size1 := by
  unfold deliver at h
  split at h
  · simp at h
  · next bufs₁ h1 =>
    split at h
    · simp at h
    · next bufs₂ h2 =>
      obtain rfl : bufs₂ = bufs' := (Prod.mk.inj h).2
      have hd1 := deliverPart_some (by rw [List.length_take]; omega) h1
      cases buffer2 with
      | none =>
        obtain rfl : bufs₁ = bufs₂ := Option.some.inj h2
        exact ⟨hd1.1, by simp⟩
      | some b2 =>
        have hd2 := deliverPart_some (by rw [List.length_drop]; omega) h2
        have hb : b ≠ b2 := fun e => hne (by rw [e])
        refine ⟨by rw [hd2.2 b hb, hd1.1], ?_⟩
        rintro _ ⟨⟩
        exact hd2.1

/-- **A value that was not delivered**: the first buffer refused its size and nothing was written, or the second
one did after the first part was delivered. -/
theorem deliver_false {size1 : ℕ} {value : Bytes} (h : deliver bufs buffer1 buffer2 size1 value = (false, bufs')) :
    (∃ b, buffer1 = some b ∧ setDataSize (bufs b) (guint32Size (value.take size1)) = none ∧ bufs' = bufs) ∨
    (∃ b, buffer2 = some b ∧ setDataSize (bufs' b) (guint32Size (value.drop size1)) = none ∧
      deliverPart bufs buffer1 (value.take size1) = some bufs') := by
  have hrefused {bufs : Buffers β} {buffer : BufferPtr} {part : Bytes} (hn : deliverPart bufs buffer part = none) :
      ∃ b, buffer = some b ∧ setDataSize (bufs b) (guint32Size part) = none := by
    cases buffer with
    | none => cases hn
    | some b => exact ⟨b, rfl, Option.map_eq_none_iff.1 hn⟩
  unfold deliver at h
  split at h
  · next hn =>
    obtain ⟨b, hb, hset⟩ := hrefused hn
    exact .inl ⟨b, hb, hset, (Prod.mk.inj h).2.symm⟩
  · next bufs₁ h1 =>
    split at h
    · next hn =>
      obtain rfl : bufs₁ = bufs' := (Prod.mk.inj h).2
      obtain ⟨b, hb, hset⟩ := hrefused hn
      exact .inr ⟨b, hb, hset, h1⟩
    · simp at h

theorem deliver_grows {size1 : ℕ} {value : Bytes} (hlt : value.length < 2 ^ 32) (hne : buffer2 ≠ some b)
    (hg1 : Grows (bufs b)) (hg2 : ∀ b2, buffer2 = some b2 → Grows (bufs b2)) :
    ∃ bufs', deliver bufs (some b) buffer2 size1 value = (true, bufs') := by
  cases hd : deliver bufs (some b) buffer2 size1 value with
  | mk status bufs' =>
    cases status with
    | true => exact ⟨bufs', rfl⟩
    | false =>
      rcases deliver_false hd with ⟨b1, hb, hnone, -⟩ | ⟨b2, hb, hnone, hfirst⟩
      · obtain rfl := Option.some.inj hb
        have htakes := hg1 (guint32Size (value.take size1))
        rw [hnone] at htakes
        cases htakes
      · -- the second buffer is as it was
        have hb2 : b2 ≠ b := by
          rintro rfl
          exact hne hb
        have hsame := (deliverPart_some (by rw [List.length_take]; omega) hfirst).2 b2 hb2
        have htakes := hg2 b2 hb (guint32Size (value.drop size1))
        rw [← hsame, hnone] at htakes
        cases htakes

end Deliver

end HyScanCache
