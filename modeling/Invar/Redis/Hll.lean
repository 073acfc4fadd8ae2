import Invar.Common.Namespace
import Invar.Common.Op

/-!
# HyperLogLog sketches (`redis/hll.rs`)

A sketch is a string of fixed length: a header of 16 bytes, which caches the
count, and 16384 registers of 6 bits. A value of another shape is treated as an
empty sketch, or left alone, whatever its type.
-/

namespace Invar.Hll

open StoreProg TxProg Ieee754

def typeString : UInt8 := ValueType.string.byte

def hllP : Nat := 14

def hllQ : Nat := 64 - hllP

def hllRegisters : Nat := 2 ^ hllP

def hllBits : Nat := 6

def hllRegisterMax : UInt32 := 63

def hllHdrSize : Nat := 16

def hllDenseSize : Nat := hllHdrSize + (hllRegisters * hllBits + 7) / 8

/-- `HLL_ALPHA_INF`. -/
def hllAlphaInf : F64 := F64.ofDecimal false 7213475204444817 16 (-16)

def magic : Bytes := ascii "HYLL"

def createHll : Bytes := magic ++ List.replicate (hllDenseSize - magic.length) 0

/-- Byte 4 is the encoding; only the dense one is written. -/
def isValidHll (data : Bytes) : Bool :=
  data.length = hllDenseSize && data.take 4 = magic && data.getD 4 0 = 0

/-- The top bit of byte 15 says that the cached count is stale. -/
def invalidateCache (data : Bytes) : Bytes := data.set 15 (data.getD 15 0 ||| 0x80)

def cachedCount (data : Bytes) : Option Nat :=
  if data.getD 15 0 &&& 0x80 != 0 then none else some (ofLeBytes ((data.drop 8).take 8))

/-! ## Registers -/

def getRegister (p : Bytes) (regnum : Nat) : UInt8 :=
  let b := regnum * hllBits / 8
  let fb := UInt32.ofNat (regnum * hllBits % 8)
  let b0 := (p.getD b 0).toUInt32 >>> fb
  let b1 := if p.length ≤ b + 1 then 0 else (p.getD (b + 1) 0).toUInt32 <<< (8 - fb)
  ((b0 ||| b1) &&& hllRegisterMax).toUInt8

def setRegister (p : Bytes) (regnum : Nat) (val : UInt8) : Bytes :=
  let b := regnum * hllBits / 8
  let fb := UInt32.ofNat (regnum * hllBits % 8)
  let v := val.toUInt32
  let low := ((p.getD b 0).toUInt32 &&& ~~~(hllRegisterMax <<< fb)) ||| (v <<< fb)
  let p := p.set b low.toUInt8
  if p.length ≤ b + 1 then p
  else
    let fb8 := 8 - fb
    let high := ((p.getD (b + 1) 0).toUInt32 &&& ~~~(hllRegisterMax >>> fb8)) ||| (v >>> fb8)
    p.set (b + 1) high.toUInt8

/-! ## Hashing -/

def murmurM : UInt64 := 0xc6a4a7935bd1e995

def mixBlock (h : UInt64) (block : Bytes) : UInt64 :=
  let k := UInt64.ofNat (ofLeBytes block) * murmurM
  let k := (k ^^^ (k >>> 47)) * murmurM
  (h ^^^ k) * murmurM

def mixBlocks : (blocks : Nat) → UInt64 → Bytes → UInt64 × Bytes
  | 0, h, rest => (h, rest)
  | n + 1, h, rest => mixBlocks n (mixBlock h (rest.take 8)) (rest.drop 8)

def murmurHash64a (data : Bytes) (seed : UInt64) : UInt64 :=
  let (h, rest) := mixBlocks (data.length / 8) (seed ^^^ (UInt64.ofNat data.length * murmurM)) data
  let h := h ^^^ UInt64.ofNat (ofLeBytes rest)
  let h := if rest.isEmpty then h else h * murmurM
  let h := (h ^^^ (h >>> 47)) * murmurM
  h ^^^ (h >>> 47)

/-- `u64::trailing_zeros` of a number with a bit below `fuel`. -/
def trailingZeros (n : Nat) : (fuel : Nat) → Nat
  | 0 => 0
  | fuel + 1 => if n % 2 = 1 then 0 else trailingZeros (n / 2) fuel + 1

/-- The register of an element, and the length of the run that it records there. -/
def hllPatLen (ele : Bytes) : Nat × Nat :=
  let hash := murmurHash64a ele 0xadc83b19
  let index := hash.toNat % hllRegisters
  let rest := (hash >>> UInt64.ofNat hllP) ||| (1 <<< UInt64.ofNat hllQ)
  (index, trailingZeros rest.toNat 64 + 1)

/-- `hll_dense_add`: the registers, and whether one changed. -/
def hllDenseAdd (registers ele : Bytes) : Bytes × Bool :=
  let (index, count) := hllPatLen ele
  let count := UInt8.ofNat count
  if getRegister registers index < count then (setRegister registers index count, true)
  else (registers, false)

/-! ## Estimation -/

/-- `hll_sigma`: the loop ends when a term no longer changes the sum. -/
def hllSigma (x : F64) : F64 :=
  if x.numEq (F64.ofInt 1) then .infinity false else go x (F64.ofInt 1) x 2048
where
  go (x y z : F64) : (fuel : Nat) → F64
    | 0 => z
    | fuel + 1 =>
      let x := x.mul x
      let z' := z.add (x.mul y)
      if z.numEq z' then z' else go x (y.add y) z' fuel

def hllTau (x : F64) : F64 :=
  if x.numEq .zero || x.numEq (F64.ofInt 1) then .zero
  else (go x (F64.ofInt 1) ((F64.ofInt 1).sub x) 2048).div (F64.ofInt 3)
where
  go (x y z : F64) : (fuel : Nat) → F64
    | 0 => z
    | fuel + 1 =>
      let x := x.sqrt
      let y := y.mul (F64.ofDecimal false 5 1 (-1))
      let gap := (F64.ofInt 1).sub x
      let z' := z.sub ((gap.mul gap).mul y)
      if z.numEq z' then z' else go x y z' fuel

/-- How many registers hold each value. -/
def regHisto (registers : Bytes) : Nat → Nat :=
  let regs := (List.range hllRegisters).map (getRegister registers)
  fun v => regs.countP (·.toNat = v)

/-- `z` of the estimator, from register value `j` down to 1. -/
def estimateFrom (histo : Nat → Nat) : (j : Nat) → F64 → F64
  | 0, z => z
  | j + 1, z =>
    estimateFrom histo j ((z.add (F64.ofInt (histo (j + 1)))).mul (F64.ofDecimal false 5 1 (-1)))

/-- `hll_count`; the refreshed cache of the source is not stored. -/
def hllCount (data : Bytes) : Nat :=
  match cachedCount data with
  | some count => count
  | none =>
    let histo := regHisto (data.drop hllHdrSize)
    let m := F64.ofInt hllRegisters
    let z := m.mul (hllTau ((m.sub (F64.ofInt (histo (hllQ + 1)))).div m))
    let z := estimateFrom histo hllQ z
    let z := z.add (m.mul (hllSigma ((F64.ofInt (histo 0)).div m)))
    F64.toUnsigned (2 ^ 64 - 1) (((hllAlphaInf.mul m).mul m).div z).round

/-! ## Merging -/

/-- `hll_merge_to_raw` and `hll_raw_to_dense`: each register is the greatest of the sources. -/
def merge (sources : List Bytes) : Bytes :=
  let value (i : Nat) : UInt8 :=
    sources.foldl (fun acc src => max acc (getRegister (src.drop hllHdrSize) i)) 0
  let registers := (List.range hllRegisters).foldl (fun p i => setRegister p i (value i))
    (createHll.drop hllHdrSize)
  invalidateCache (createHll.take hllHdrSize ++ registers)

/-- The values that are sketches, of the keys that are there. -/
def validSketches : List Bytes → TxProg (List Bytes)
  | [] => return []
  | key :: rest => do
    let here := (← get key).map (·.value)
    return (here.filter isValidHll).toList ++ (← validSketches rest)

/-! ## Commands -/

def addElements : List Bytes → Bytes → Bool → Bytes × Bool
  | [], registers, updated => (registers, updated)
  | ele :: rest, registers, updated =>
    let (registers, changed) := hllDenseAdd registers ele
    addElements rest registers (updated || changed)

def pfadd (key : Bytes) (elements : List Bytes) : TxProg RespValue := do
  let data := ((← get key).map (·.value)).getD createHll
  if !isValidHll data then return .integer 0
  let (registers, updated) := addElements elements (data.drop hllHdrSize) false
  if updated then
    let value := invalidateCache (data.take hllHdrSize ++ registers)
    setKeepingTtl { key, value, metadata := typeString }
    return .integer 1
  else return .integer 0

/-- A `u64` rendered as a signed integer. -/
def countReply (n : Nat) : RespValue := .integer (asI64 n)

def pfcount (keys : List Bytes) : TxProg RespValue := do
  match keys with
  | [] => return countReply 0
  | [key] =>
    match ← get key with
    | none => return countReply 0
    | some item => return countReply (if isValidHll item.value then hllCount item.value else 0)
  | keys => return countReply (hllCount (merge (← validSketches keys)))

/-- The destination is overwritten, whatever it held, and loses its expiry. -/
def pfmerge (dest : Bytes) (sources : List Bytes) : TxProg RespValue := do
  let sketches ← validSketches sources
  set { key := dest, value := merge sketches, metadata := typeString }
  return .ok

end Invar.Hll
