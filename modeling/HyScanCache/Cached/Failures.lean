import HyScanCache.Cached.Invariants

/-!
# Calls that fail

`hyscan_cached_set` fails before it touches anything.  `hyscan_cached_get` fails in five places; where it finds
no object of the key and the detail it has touched nothing either.  Where it has found one, a buffer refused its
part: by then the object is on top of the list, and when it was the second buffer that refused, the first one
has been written (`failed_call`, `failed_get_changes`).
-/

namespace HyScanCache.Cached

open Lib Recency HyScanCachedPrivate

variable {β : Type} [HyScanBuffer β]
variable {priv priv' : HyScanCachedPrivate} {s : Store} {block : Block} {bufs : Buffers β} {c : GetCall β}

/-- What a call leaves of the buffers when one of them refuses its part of the value it found. -/
inductive RefusedHalfway (c : GetCall β) (value : Bytes) (bufs : Buffers β) : Prop
  /-- The first buffer has refused its part, and nothing is written. -/
  | first {b1 : ℕ} (h1 : c.buffer1 = some b1)
      (hrefused : setDataSize (c.bufs b1) (guint32Size (value.take c.size1.toNat)) = none) (hbufs : bufs = c.bufs)
  /-- The second buffer has refused its part, and the first one holds the other part. -/
  | second {b1 b2 : ℕ} (h1 : c.buffer1 = some b1) (h2 : c.buffer2 = some b2)
      (hrefused : setDataSize (bufs b2) (guint32Size (value.drop c.size1.toNat)) = none)
      (hfirst : bytes (bufs b1) = value.take c.size1.toNat) (hothers : ∀ b, b ≠ b1 → bufs b = c.bufs b)

theorem RefusedHalfway.of_deliver {value : Bytes} (hlt : value.length < 2 ^ 32) (hcr : ¬ c.Refused)
    (h : deliver c.bufs c.buffer1 c.buffer2 c.size1.toNat value = (false, bufs)) : RefusedHalfway c value bufs := by
  rcases deliver_false h with ⟨b1, h1, hset, hb⟩ | ⟨b2, h2, hset, hpart⟩
  · exact .first h1 hset hb
  · cases h1 : c.buffer1 with
    | none => exact absurd ⟨h1, by simp [h2]⟩ hcr
    | some b1 =>
      rw [h1] at hpart
      obtain ⟨hfirst, hothers⟩ := deliverPart_some (by rw [List.length_take]; omega) hpart
      exact .second h1 h2 hset hfirst hothers

theorem get_of_not_found (hA : Abs priv s) (hf : ¬ Found priv c) : callGet priv c = .ok (false, c.bufs, priv) := by
  obtain ⟨l, hr, -⟩ := hA
  by_cases hcr : c.Refused
  · exact get_refuse hcr
  · apply get_miss hcr
    cases hg : getObject priv c.key c.detail with
    | error f =>
      rw [getObject_spec hr c] at hg
      cases hg
    | ok object =>
      cases object with
      | none => rfl
      | some a => exact absurd ⟨hcr, a, hg⟩ hf

theorem get_of_found (hA : Abs priv s) (hf : Found priv c) :
    ∃ us o vs os' priv', Reads priv (us ++ o :: vs) ∧ o.hash = c.key ∧ (c.detail = 0 ∨ o.detail = c.detail) ∧
      callGet priv c = .ok ((deliver c.bufs c.buffer1 c.buffer2 c.size1.toNat (objectBytes o)).1,
        (deliver c.bufs c.buffer1 c.buffer2 c.size1.toNat (objectBytes o)).2, priv') ∧
      LinksOnly priv priv' ∧ Reads priv' os' ∧ os'.map contents = (o :: (us ++ vs)).map contents := by
  obtain ⟨l, hr, -⟩ := hA
  obtain ⟨hcr, a, hg⟩ := hf
  rw [getObject_spec hr c] at hg
  obtain ⟨x, hfind, ha⟩ := Option.bind_eq_some_iff.1 (Except.ok.inj hg)
  have hd : c.Accepts x.2.detail := by
    by_contra hd
    rw [if_neg hd] at ha
    cases ha
  have hk : Cell.key x = c.key := key_of_find hfind
  obtain ⟨us, vs, rfl⟩ := List.append_of_mem (mem_of_find hfind)
  obtain ⟨priv', -, he, hr', hlo⟩ := get_hit hr hcr hk hd
  obtain ⟨os, hread, -⟩ := hr.reads
  obtain ⟨os', hread', -⟩ := hr'.reads
  have hos := hr.reads_contents hread
  have hos' := hr'.reads_contents hread'
  -- the objects of the list, split as the cells are
  rw [List.map_append, List.map_cons] at hos
  obtain ⟨us', os₁, rfl, hus, hos₁⟩ := List.map_eq_append_iff.1 hos
  obtain ⟨o, vs', rfl, ho, hvs⟩ := List.map_eq_cons_iff.1 hos₁
  have hbytes : objectBytes o = x.2.bytes := congrArg Contents.bytes ho
  have hdetail : o.detail = x.2.detail := congrArg Contents.detail ho
  refine ⟨us', o, vs', os', priv', hread, (congrArg Contents.key ho).trans hk, ?_, ?_, hlo, hread', ?_⟩
  · rw [hdetail]
    exact hd
  · rw [hbytes]
    exact he
  · rw [hos', List.map_cons, List.map_cons, List.map_append, List.map_append, ho, hus, hvs]

theorem length_objectBytes_lt (o : ObjectInfo) : (objectBytes o).length < 2 ^ 32 := by
  have hsize := o.size.toNat_lt
  rw [objectBytes, List.length_take]
  omega

/-- **A failed call.**  In a reachable state, a `set` that returns `FALSE` leaves the cache as it was, and so does
a `get` that returns `FALSE` when it finds no object of the key and the detail, and it leaves the buffers as they
were too.  A `get` that returns `FALSE` though it finds an object has moved the object to the top of the list
and has changed nothing else of the cache; a buffer has refused its part of the bytes. -/
theorem failed_call (hr : (cached β).Reachable priv) :
    (∀ block (c : SetCall β) priv', callSet block priv c = .ok (false, priv') → priv' = priv) ∧
    ∀ (c : GetCall β) bufs priv', callGet priv c = .ok (false, bufs, priv') →
      (¬ Found priv c → priv' = priv ∧ bufs = c.bufs) ∧
      (Found priv c → LinksOnly priv priv' ∧ ∃ us o vs os', Reads priv (us ++ o :: vs) ∧ o.hash = c.key ∧
        (c.detail = 0 ∨ o.detail = c.detail) ∧ Reads priv' os' ∧
        os'.map contents = (o :: (us ++ vs)).map contents ∧ RefusedHalfway c (objectBytes o) bufs) := by
  obtain ⟨s, hA⟩ := Reachable.abs hr
  constructor
  · intro block c priv' he
    exact callSet_false hA he
  intro c bufs priv' he
  constructor
  · intro hf
    rw [get_of_not_found hA hf] at he
    cases he
    exact ⟨rfl, rfl⟩
  · intro hf
    obtain ⟨us, o, vs, os', priv₁, hread, hk, hd, he₁, hlo, hread', hos'⟩ := get_of_found hA hf
    obtain ⟨hstatus, hbufs, rfl⟩ : (deliver c.bufs c.buffer1 c.buffer2 c.size1.toNat (objectBytes o)).1 = false ∧
        (deliver c.bufs c.buffer1 c.buffer2 c.size1.toNat (objectBytes o)).2 = bufs ∧ priv₁ = priv' := by
      simpa using he₁.symm.trans he
    refine ⟨hlo, us, o, vs, os', hread, hk, hd, hread', hos', ?_⟩
    exact .of_deliver (length_objectBytes_lt o) hf.1 (Prod.ext hstatus hbufs)

/-- A `get` of the first two bytes of a payload to a buffer, and of the rest to one that has no room. -/
def crampedGet (key : UInt64) : GetCall PlainBuffer where
  key := key
  detail := 0
  size1 := 2
  bufs := fun b => if b = 0 then .empty else .wrapped [] 0 le_rfl
  buffer1 := some 0
  buffer2 := some 1

/-- The rest of a payload of three bytes is refused. -/
theorem failed_call_sample : ∃ priv priv' bufs o, (cached PlainBuffer).Reachable priv ∧
    callGet priv (crampedGet 7) = .ok (false, bufs, priv') ∧ LinksOnly priv priv' ∧ o.hash = 7 ∧
    RefusedHalfway (crampedGet 7) (objectBytes o) bufs := by
  obtain ⟨priv, -, h₁, -⟩ := sample_sets
  obtain ⟨bufs, priv', h₂, hf⟩ : ∃ bufs priv', callGet priv (crampedGet 7) = .ok (false, bufs, priv') ∧
      Found priv (crampedGet 7) := by
    cases h₁
    exact ⟨_, _, rfl, by decide, _, rfl⟩
  have hr : (cached PlainBuffer).Reachable priv := reachable_new.step (Step.set _ h₁)
  obtain ⟨hlo, us, o, vs, os', -, hk, -, -, -, hrefused⟩ := ((failed_call hr).2 _ _ _ h₂).2 hf
  exact ⟨priv, priv', bufs, o, hr, h₂, hlo, hk, hrefused⟩

/-- Two payloads are stored, and a `get` of the first one fails: its object is on top now, and the first buffer
has its first two bytes. -/
theorem failed_get_changes : ∃ priv priv' bufs os os', (cached PlainBuffer).Reachable priv ∧
    callGet priv (crampedGet 7) = .ok (false, bufs, priv') ∧
    Reads priv os ∧ os.map ObjectInfo.hash = [8, 7] ∧ Reads priv' os' ∧ os'.map ObjectInfo.hash = [7, 8] ∧
    bytes ((crampedGet 7).bufs 0) = [] ∧ bytes (bufs 0) = [7, 2] := by
  obtain ⟨priv₁, priv, h₁, h₂⟩ := sample_sets
  obtain ⟨bufs, priv', h₃, hb⟩ : ∃ bufs priv', callGet priv (crampedGet 7) = .ok (false, bufs, priv') ∧
      bytes (bufs 0) = [7, 2] := by
    cases h₁
    cases h₂
    exact ⟨_, _, rfl, rfl⟩
  have hr : (cached PlainBuffer).Reachable priv := (reachable_new.step (Step.set _ h₁)).step (Step.set _ h₂)
  obtain ⟨os, hread, hos⟩ : ∃ os, Reads priv os ∧ os.map ObjectInfo.hash = [8, 7] := by
    cases h₁
    cases h₂
    exact ⟨[_, _], ⟨[1, 0], ⟨rfl, _, rfl, rfl, _, rfl, rfl⟩, rfl⟩, rfl⟩
  obtain ⟨os', hread', hos'⟩ : ∃ os, Reads priv' os ∧ os.map ObjectInfo.hash = [7, 8] := by
    cases h₁
    cases h₂
    cases h₃
    exact ⟨[_, _], ⟨[0, 1], ⟨rfl, _, rfl, rfl, _, rfl, rfl⟩, rfl⟩, rfl⟩
  exact ⟨priv, priv', bufs, os, os', hr, h₃, hread, hos, hread', hos', rfl, hb⟩

end HyScanCache.Cached
