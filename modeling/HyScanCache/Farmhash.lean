import HyScanCache.Lib.Prog
import HyScanCache.Memory

/-!
# FarmHash

`hyscan_hash64` and what it calls in `farmhash.cc`: `util::Hash64` as it is compiled without SSE4.2.  A hash is a
program that fetches words and bytes of a string; what happens when it fetches beyond the memory the string lies in,
or when an assertion fails, is a `HashFault`.
-/

namespace HyScanCache.Farmhash

open Lib

/-! ### Strings -/

/-- What is done with a string; places are counted from its first byte. -/
inductive StringOp where
  | fetch64 (p : ℤ)
  | fetch32 (p : ℤ)
  | char (p : ℤ)
  | assert (b : Bool)
  /-- The loop has not ended. -/
  | endless

/-- The answers. -/
@[reducible] def StringOp.Ans : StringOp → Type
  | .fetch64 _ => UInt64
  | .fetch32 _ => UInt32
  | .char _ => UInt8
  | .assert _ => Unit
  | .endless => Empty

/-- A program that works on a string. -/
abbrev StringProg := Prog StringOp StringOp.Ans

/-- `Fetch64` -/
def fetch64 (p : ℤ) : StringProg UInt64 := .op (.fetch64 p) .ret

/-- `Fetch32` -/
def fetch32 (p : ℤ) : StringProg UInt32 := .op (.fetch32 p) .ret

/-- `s[p]` -/
def char (p : ℤ) : StringProg UInt8 := .op (.char p) .ret

/-- `assert` -/
def assert (b : Bool) : StringProg Unit := .op (.assert b) .ret

/-- `do { body; s += 64; } while (s != end);`, given up after `fuel` rounds. -/
def doWhile {σ : Type} (body : ℤ → σ → StringProg σ) (end' : ℤ) : ℕ → ℤ → σ → StringProg σ
  | 0, _, _ => .op .endless fun a => nomatch a
  | fuel + 1, s, st => do
    let st ← body s st
    if s + 64 ≠ end' then
      doWhile body end' fuel (s + 64) st
    else
      return st

/-- Why a hash is not computed. -/
inductive HashFault where
  /-- A read beyond the memory. -/
  | overrun
  /-- An assertion fails. -/
  | assertion
  /-- A loop has not ended. -/
  | endless
  deriving DecidableEq, Repr

/-- The number that bytes spell, the lowest first: `uint64_in_expected_order` and its sibling see to that. -/
def littleEndian (bytes : Bytes) : ℕ := bytes.foldr (fun b n => b.toNat + 256 * n) 0

/-- The memory around a string: at each place a byte, if it can be read. -/
abbrev Memory := ℤ → Option UInt8

/-- `n` bytes from the place `p` on. -/
def bytesAt (mem : Memory) (p : ℤ) : ℕ → Except HashFault Bytes
  | 0 => .ok []
  | n + 1 =>
    match mem p with
    | some b => do return b :: (← bytesAt mem (p + 1) n)
    | none => .error .overrun

/-- What an operation does. -/
def StringOp.perform (mem : Memory) : (o : StringOp) → Except HashFault o.Ans
  | .fetch64 p => do return UInt64.ofNat (littleEndian (← bytesAt mem p 8))
  | .fetch32 p => do return UInt32.ofNat (littleEndian (← bytesAt mem p 4))
  | .char p => do return UInt8.ofNat (littleEndian (← bytesAt mem p 1))
  | .assert b => if b then .ok () else .error .assertion
  | .endless => .error .endless

/-! ### Words -/

/-- `Rotate64` -/
def rotate (val shift : UInt64) : UInt64 :=
  if shift = 0 then val else (val >>> shift) ||| (val <<< (64 - shift))

/-- `Bswap64` -/
def bswap64 (val : UInt64) : UInt64 :=
  (List.range 8).foldl (fun x i => x ||| ((val >>> UInt64.ofNat (8 * i)) &&& 0xff) <<< UInt64.ofNat (56 - 8 * i)) 0

def k0 : UInt64 := 0xc3a5c85c97cb3127

def k1 : UInt64 := 0xb492b66fbe98f273

def k2 : UInt64 := 0x9ae16a3b2f90404f

/-- `DebugTweak` -/
def debugTweak (debugMode : Bool) (x : UInt64) : UInt64 :=
  if debugMode then ~~~(bswap64 (x * k1)) else x

/-- `Hash128to64`, of the low and the high word -/
def hash128to64 (low high : UInt64) : UInt64 :=
  let kMul : UInt64 := 0x9ddfea08eb382d69
  let a := (low ^^^ high) * kMul
  let a := a ^^^ (a >>> 47)
  let b := (high ^^^ a) * kMul
  let b := b ^^^ (b >>> 47)
  b * kMul

/-! ### `farmhashna` -/

namespace Na

/-- `ShiftMix` -/
def shiftMix (val : UInt64) : UInt64 := val ^^^ (val >>> 47)

/-- `HashLen16`, of two words -/
def hashLen16 (u v : UInt64) : UInt64 := hash128to64 u v

/-- `HashLen16`, of two words and a factor -/
def hashLen16Mul (u v mul : UInt64) : UInt64 :=
  let a := (u ^^^ v) * mul
  let a := a ^^^ (a >>> 47)
  let b := (v ^^^ a) * mul
  let b := b ^^^ (b >>> 47)
  b * mul

/-- `HashLen0to16` -/
def hashLen0to16 (s : ℤ) (len : ℕ) : StringProg UInt64 :=
  if len ≥ 8 then do
    let mul := k2 + UInt64.ofNat len * 2
    let a := (← fetch64 s) + k2
    let b ← fetch64 (s + len - 8)
    let c := rotate b 37 * mul + a
    let d := (rotate a 25 + b) * mul
    return hashLen16Mul c d mul
  else if len ≥ 4 then do
    let mul := k2 + UInt64.ofNat len * 2
    let a := (← fetch32 s).toUInt64
    return hashLen16Mul (UInt64.ofNat len + (a <<< 3)) (← fetch32 (s + len - 4)).toUInt64 mul
  else if len > 0 then do
    let a ← char s
    let b ← char (s + (len / 2 : ℕ))
    let c ← char (s + len - 1)
    let y : UInt32 := a.toUInt32 + (b.toUInt32 <<< 8)
    let z : UInt32 := UInt32.ofNat len + (c.toUInt32 <<< 2)
    return shiftMix (y.toUInt64 * k2 ^^^ z.toUInt64 * k0) * k2
  else return k2

/-- `HashLen17to32` -/
def hashLen17to32 (s : ℤ) (len : ℕ) : StringProg UInt64 := do
  let mul := k2 + UInt64.ofNat len * 2
  let a := (← fetch64 s) * k1
  let b ← fetch64 (s + 8)
  let c := (← fetch64 (s + len - 8)) * mul
  let d := (← fetch64 (s + len - 16)) * k2
  return hashLen16Mul (rotate (a + b) 43 + rotate c 30 + d) (a + rotate (b + k2) 18 + c) mul

/-- `WeakHashLen32WithSeeds`, of words -/
def weakHashLen32 (w x y z a b : UInt64) : UInt64 × UInt64 :=
  let a := a + w
  let b := rotate (b + a + z) 21
  let c := a
  let a := a + x
  let a := a + y
  let b := b + rotate a 44
  (a + z, b + c)

/-- `WeakHashLen32WithSeeds`, of 32 bytes -/
def weakHashLen32WithSeeds (s : ℤ) (a b : UInt64) : StringProg (UInt64 × UInt64) := do
  return weakHashLen32 (← fetch64 s) (← fetch64 (s + 8)) (← fetch64 (s + 16)) (← fetch64 (s + 24)) a b

/-- `HashLen33to64` -/
def hashLen33to64 (s : ℤ) (len : ℕ) : StringProg UInt64 := do
  let mul := k2 + UInt64.ofNat len * 2
  let a := (← fetch64 s) * k2
  let b ← fetch64 (s + 8)
  let c := (← fetch64 (s + len - 8)) * mul
  let d := (← fetch64 (s + len - 16)) * k2
  let y := rotate (a + b) 43 + rotate c 30 + d
  let z := hashLen16Mul y (a + rotate (b + k2) 18 + c) mul
  let e := (← fetch64 (s + 16)) * mul
  let f ← fetch64 (s + 24)
  let g := (y + (← fetch64 (s + len - 32))) * mul
  let h := (z + (← fetch64 (s + len - 24))) * mul
  return hashLen16Mul (rotate (e + f) 43 + rotate g 30 + h) (e + rotate (f + a) 18 + g) mul

/-- What `Hash64` goes through a long string with. -/
structure State where
  x : UInt64
  y : UInt64
  z : UInt64
  v : UInt64 × UInt64
  w : UInt64 × UInt64

/-- What it does with 64 bytes. -/
def round (s : ℤ) (st : State) : StringProg State := do
  let ⟨x, y, z, v, w⟩ := st
  let x := rotate (x + y + v.1 + (← fetch64 (s + 8))) 37 * k1
  let y := rotate (y + v.2 + (← fetch64 (s + 48))) 42 * k1
  let x := x ^^^ w.2
  let y := y + (v.1 + (← fetch64 (s + 40)))
  let z := rotate (z + w.1) 33 * k1
  let v ← weakHashLen32WithSeeds s (v.2 * k1) (x + w.1)
  let w ← weakHashLen32WithSeeds (s + 32) (z + w.2) (y + (← fetch64 (s + 16)))
  return ⟨z, y, x, v, w⟩

/-- What it does with the last 64 bytes. -/
def last (s : ℤ) (len : ℕ) (st : State) : StringProg UInt64 := do
  let ⟨x, y, z, v, w⟩ := st
  let mul := k1 + ((z &&& 0xff) <<< 1)
  let w := (w.1 + UInt64.ofNat ((len - 1) % 64), w.2)
  let v := (v.1 + w.1, v.2)
  let w := (w.1 + v.1, w.2)
  let x := rotate (x + y + v.1 + (← fetch64 (s + 8))) 37 * mul
  let y := rotate (y + v.2 + (← fetch64 (s + 48))) 42 * mul
  let x := x ^^^ (w.2 * 9)
  let y := y + (v.1 * 9 + (← fetch64 (s + 40)))
  let z := rotate (z + w.1) 33 * mul
  let v ← weakHashLen32WithSeeds s (v.2 * mul) (x + w.1)
  let w ← weakHashLen32WithSeeds (s + 32) (z + w.2) (y + (← fetch64 (s + 16)))
  -- `std::swap(z, x)`
  return hashLen16Mul (hashLen16Mul v.1 w.1 mul + shiftMix y * k0 + x) (hashLen16Mul v.2 w.2 mul + z) mul

/-- `Hash64` -/
def hash64 (s : ℤ) (len : ℕ) : StringProg UInt64 :=
  let seed : UInt64 := 81
  if len ≤ 32 then
    if len ≤ 16 then hashLen0to16 s len else hashLen17to32 s len
  else if len ≤ 64 then hashLen33to64 s len
  else do
    let x := seed
    let y := seed * k1 + 113
    let z := shiftMix (y * k2 + 113) * k2
    let x := x * k2 + (← fetch64 s)
    let end' := s + ((len - 1) / 64 * 64 : ℕ)
    let last64 := end' + ((len - 1) % 64 : ℕ) - 63
    assert (s + len - 64 = last64)
    let st ← doWhile round end' len s ⟨x, y, z, (0, 0), (0, 0)⟩
    last last64 len st

/-- `Hash64WithSeeds` -/
def hash64WithSeeds (s : ℤ) (len : ℕ) (seed0 seed1 : UInt64) : StringProg UInt64 := do
  return hashLen16 ((← hash64 s len) - seed0) seed1

end Na

/-! ### `farmhashuo` -/

namespace Uo

/-- `H` -/
def h (x y mul r : UInt64) : UInt64 :=
  let a := (x ^^^ y) * mul
  let a := a ^^^ (a >>> 47)
  let b := (y ^^^ a) * mul
  rotate b r * mul

/-- What `Hash64WithSeeds` goes through a long string with. -/
structure State where
  x : UInt64
  y : UInt64
  z : UInt64
  v : UInt64 × UInt64
  w : UInt64 × UInt64
  u : UInt64

/-- What it does with 64 bytes. -/
def round (mul : UInt64) (s : ℤ) (st : State) : StringProg State := do
  let ⟨x, y, z, v, w, u⟩ := st
  let a0 ← fetch64 s
  let a1 ← fetch64 (s + 8)
  let a2 ← fetch64 (s + 16)
  let a3 ← fetch64 (s + 24)
  let a4 ← fetch64 (s + 32)
  let a5 ← fetch64 (s + 40)
  let a6 ← fetch64 (s + 48)
  let a7 ← fetch64 (s + 56)
  let x := x + (a0 + a1)
  let y := y + a2
  let z := z + a3
  let v := (v.1 + a4, v.2 + (a5 + a1))
  let w := (w.1 + a6, w.2 + a7)
  let x := rotate x 26
  let x := x * 9
  let y := rotate y 29
  let z := z * mul
  let v := (rotate v.1 33, rotate v.2 30)
  let w := (w.1 ^^^ x, w.2)
  let w := (w.1 * 9, w.2)
  let z := rotate z 32
  let z := z + w.2
  let w := (w.1, w.2 + z)
  let z := z * 9
  let (u, y) := (y, u)
  let z := z + (a0 + a6)
  let v := (v.1 + a2, v.2 + a3)
  let w := (w.1 + a4, w.2 + (a5 + a6))
  let x := x + a1
  let y := y + a7
  let y := y + v.1
  let v := (v.1 + (x - y), v.2)
  let v := (v.1, v.2 + w.1)
  let w := (w.1 + v.2, w.2)
  let w := (w.1, w.2 + (x - y))
  let x := x + w.2
  let w := (w.1, rotate w.2 34)
  let (u, z) := (z, u)
  return ⟨x, y, z, v, w, u⟩

/-- What it does with the last 64 bytes. -/
def last (mul : UInt64) (s : ℤ) (len : ℕ) (st : State) : StringProg UInt64 := do
  let ⟨x, y, z, v, w, u⟩ := st
  let u := u * 9
  let v := (v.1, rotate v.2 28)
  let v := (rotate v.1 20, v.2)
  let w := (w.1 + UInt64.ofNat ((len - 1) % 64), w.2)
  let u := u + y
  let y := y + u
  let x := rotate (y - x + v.1 + (← fetch64 (s + 8))) 37 * mul
  let y := rotate (y ^^^ v.2 ^^^ (← fetch64 (s + 48))) 42 * mul
  let x := x ^^^ (w.2 * 9)
  let y := y + (v.1 + (← fetch64 (s + 40)))
  let z := rotate (z + w.1) 33 * mul
  let v ← Na.weakHashLen32WithSeeds s (v.2 * mul) (x + w.1)
  let w ← Na.weakHashLen32WithSeeds (s + 32) (z + w.2) (y + (← fetch64 (s + 16)))
  return h (Na.hashLen16Mul (v.1 + x) (w.1 ^^^ y) mul + z - u) (h (v.2 + y) (w.2 + z) k2 30 ^^^ x) k2 31

/-- `Hash64WithSeeds` -/
def hash64WithSeeds (s : ℤ) (len : ℕ) (seed0 seed1 : UInt64) : StringProg UInt64 :=
  if len ≤ 64 then Na.hash64WithSeeds s len seed0 seed1
  else do
    let x := seed0
    let y := seed1 * k2 + 113
    let z := Na.shiftMix (y * k2) * k2
    let v := (seed0, seed1)
    let w := (0, 0)
    let u := x - z
    let x := x * k2
    let mul := k2 + (u &&& 0x82)
    let end' := s + ((len - 1) / 64 * 64 : ℕ)
    let last64 := end' + ((len - 1) % 64 : ℕ) - 63
    assert (s + len - 64 = last64)
    let st ← doWhile (round mul) end' len s ⟨x, y, z, v, w, u⟩
    last mul last64 len st

/-- `Hash64` -/
def hash64 (s : ℤ) (len : ℕ) : StringProg UInt64 :=
  if len ≤ 64 then Na.hash64 s len else hash64WithSeeds s len 81 0

end Uo

/-! ### `farmhashxo` -/

namespace Xo

/-- `H32` -/
def h32 (s : ℤ) (len : ℕ) (mul seed0 seed1 : UInt64) : StringProg UInt64 := do
  let a := (← fetch64 s) * k1
  let b ← fetch64 (s + 8)
  let c := (← fetch64 (s + len - 8)) * mul
  let d := (← fetch64 (s + len - 16)) * k2
  let u := rotate (a + b) 43 + rotate c 30 + d + seed0
  let v := a + rotate (b + k2) 18 + c + seed1
  let a := Na.shiftMix ((u ^^^ v) * mul)
  return Na.shiftMix ((v ^^^ a) * mul)

/-- `HashLen33to64` -/
def hashLen33to64 (s : ℤ) (len : ℕ) : StringProg UInt64 := do
  let mul0 := k2 - 30
  let mul1 := k2 - 30 + 2 * UInt64.ofNat len
  let h0 ← h32 s 32 mul0 0 0
  let h1 ← h32 (s + len - 32) 32 mul1 0 0
  return ((h1 * mul1) + h0) * mul1

/-- `HashLen65to96` -/
def hashLen65to96 (s : ℤ) (len : ℕ) : StringProg UInt64 := do
  let mul0 := k2 - 114
  let mul1 := k2 - 114 + 2 * UInt64.ofNat len
  let h0 ← h32 s 32 mul0 0 0
  let h1 ← h32 (s + 32) 32 mul1 0 0
  let h2 ← h32 (s + len - 32) 32 mul1 h0 h1
  return (h2 * 9 + (h0 >>> (17 : UInt64)) + (h1 >>> (21 : UInt64))) * mul1

/-- `Hash64` -/
def hash64 (s : ℤ) (len : ℕ) : StringProg UInt64 :=
  if len ≤ 32 then
    if len ≤ 16 then Na.hashLen0to16 s len else Na.hashLen17to32 s len
  else if len ≤ 64 then hashLen33to64 s len
  else if len ≤ 96 then hashLen65to96 s len
  else if len ≤ 256 then Na.hash64 s len
  else Uo.hash64 s len

end Xo

/-! ### `util`, and the hash of a name -/

/-- `util::Hash64` -/
def hash64 (debugMode : Bool) (s : ℤ) (len : ℕ) : StringProg UInt64 := do
  return debugTweak debugMode (← Xo.hash64 s len)

/-- `strlen` -/
def strlen : Bytes → Except HashFault ℕ
  | [] => .error .overrun
  | b :: bytes => if b = 0 then .ok 0 else (· + 1) <$> strlen bytes

/-- A memory that ends where `bytes` end. -/
def memoryOf (bytes : Bytes) : Memory := fun p => if 0 ≤ p then bytes[p.toNat]? else none

/-- `hyscan_hash64`, of a pointer to the first of some bytes -/
def hyscanHash64 (debugMode : Bool) (name : Option Bytes) : Except HashFault UInt64 :=
  match name with
  | some bytes => do (hash64 debugMode 0 (← strlen bytes)).eval (StringOp.perform (memoryOf bytes))
  | none => .ok 0

end HyScanCache.Farmhash
