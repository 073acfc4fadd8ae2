import Mathlib.Algebra.GroupWithZero.Nat
import Invar.Common.Namespace
import Invar.Common.Op

/-!
# Bloom filters (`redis/bloom.rs`)

A filter is a meta entry under the public key, which describes its sub-filters,
and pages of 4096 bytes under `<prefix>\0bf:<filter>:p:<page>`. No command looks
at the type of the entry that it decodes.

The logarithm of the platform is a parameter.
-/

namespace Invar.Bloom

open StoreProg TxProg Ieee754

def pageSize : Nat := 4096

def pageBits : Nat := pageSize * 8

def defCap : Nat := 100

def defErr : F64 := F64.ofDecimal false 1 1 (-2)

def defExp : Int := 2

def metaHeader : Nat := 4

def filterMetaSize : Nat := 60

def maxHashes : Nat := 64

def typeBloom : UInt8 := ValueType.bloom.byte

structure SubFilterMeta where
  id : Nat
  capacity : Nat
  inserted : Nat
  errorRate : F64
  numHashes : Nat
  numBits : Nat
  seed1 : UInt64
  seed2 : UInt64
deriving DecidableEq, Repr

structure BloomMeta where
  expansion : Nat
  nonScaling : Bool
  filters : List SubFilterMeta
deriving DecidableEq, Repr

/-! ## Parameters of a sub-filter -/

def fnv1a64 (data : Bytes) : UInt64 :=
  data.foldl (fun hash b => (hash ^^^ b.toUInt64) * 0x100000001b3) 0xcbf29ce484222325

def bloomHash (data : Bytes) (seed : UInt64) : UInt64 :=
  fnv1a64 (leBytes 8 seed.toNat ++ data)

def subFilterSeeds (filterId : Nat) : UInt64 × UInt64 :=
  (fnv1a64 (leBytes 8 filterId ++ leBytes 8 0), fnv1a64 (leBytes 8 filterId ++ leBytes 8 1))

def ln2 : F64 := F64.ofDecimal false 693147180559945309417232121458 30 (-30)

section

variable (ln : F64 → F64)

/-- The number of bits and of hash functions. -/
def computeBloomParams (capacity : Nat) (errorRate : F64) : Nat × Nat :=
  let errorRate := if errorRate.le .zero then defErr else errorRate
  let capacity := F64.ofInt (max capacity 1 : Nat)
  let one := F64.ofInt 1
  let bits := ((capacity.neg.mul (ln errorRate)).div (ln2.mul ln2)).ceil
  let numBits := (F64.max bits one).toUnsigned (2 ^ 64 - 1)
  let hashes := (((F64.ofInt numBits).div capacity).mul ln2).round
  (numBits, (F64.min (F64.max hashes one) (F64.ofInt maxHashes)).toUnsigned (2 ^ 32 - 1))

def subFilterErrorRate (targetRate : F64) (index : Nat) : F64 :=
  targetRate.mul ((F64.ofDecimal false 5 1 (-1)).powi (asI32 (index + 1)))

/-- `base * expansion ^ index`; the product wraps around. -/
def subFilterCapacity (baseCap : Nat) (expansion : Int) (index : Nat) : Nat :=
  baseCap * ((F64.ofInt expansion).powi (asI32 index)).toUnsigned (2 ^ 64 - 1) % 2 ^ 64

def subFilter (id capacity : Nat) (errorRate : F64) : SubFilterMeta :=
  let (numBits, numHashes) := computeBloomParams ln capacity errorRate
  let (seed1, seed2) := subFilterSeeds id
  { id, capacity, inserted := 0, errorRate, numHashes, numBits, seed1, seed2 }

def newSubFilter (baseCapacity : Nat) (errorRate : F64) (expansion : Int) (filterId : Nat) :
    SubFilterMeta :=
  subFilter ln filterId (subFilterCapacity baseCapacity expansion filterId)
    (subFilterErrorRate errorRate filterId)

def newInitialSubFilter (capacity : Nat) (errorRate : F64) (expansion : Int)
    (nonScaling : Bool) : SubFilterMeta :=
  if nonScaling then subFilter ln 0 capacity errorRate
  else newSubFilter ln capacity errorRate expansion 0

end

/-! ## The meta entry -/

def SubFilterMeta.encode (f : SubFilterMeta) : Bytes :=
  leBytes 8 f.id ++ leBytes 8 f.capacity ++ leBytes 8 f.inserted ++
    leBytes 8 f.errorRate.bits.toNat ++ leBytes 4 f.numHashes ++ leBytes 8 f.numBits ++
    leBytes 8 f.seed1.toNat ++ leBytes 8 f.seed2.toNat

def encodeMeta (m : BloomMeta) : Bytes :=
  let filters := m.filters.take (2 ^ 16 - 1)
  (if m.nonScaling then 1 else 0) :: UInt8.ofNat m.expansion :: beBytes 2 filters.length ++
    filters.flatMap (·.encode)

def decodeFilter (data : Bytes) : SubFilterMeta :=
  let field (start width : Nat) : Nat := ofLeBytes ((data.drop start).take width)
  { id := field 0 8
    capacity := field 8 8
    inserted := field 16 8
    errorRate := ⟨UInt64.ofNat (field 24 8)⟩
    numHashes := field 32 4
    numBits := field 36 8
    seed1 := UInt64.ofNat (field 44 8)
    seed2 := UInt64.ofNat (field 52 8) }

/-- `none` is `KeyNotFound`: the data is too short. -/
def decodeMeta (data : Bytes) : Option BloomMeta :=
  let n := ofBeBytes ((data.drop 2).take 2)
  if data.length < metaHeader || data.length < metaHeader + n * filterMetaSize then none
  else some
    { nonScaling := data.getD 0 0 &&& 1 != 0
      expansion := (data.getD 1 0).toNat
      filters := (List.range n).map fun i =>
        decodeFilter (data.drop (metaHeader + i * filterMetaSize)) }

def pageKey (pagePrefix : Bytes) (filterId pageNum : Nat) : Bytes :=
  pagePrefix ++ 0 :: ascii "bf:" ++ decimal filterId ++ ascii ":p:" ++ decimal pageNum

/-- `read_meta_or_nil`, whatever the type of the entry. -/
def readMetaOrNil (metaKey : Bytes) : TxProg (Option BloomMeta) := do
  match ← get metaKey with
  | none => return none
  | some item => return decodeMeta (← ofExcept (payload item))

def writeMeta (metaKey : Bytes) (m : BloomMeta) (p : ElementPrefix) : TxProg Unit :=
  writeSentinel metaKey (encodeMeta m) typeBloom p

def readPage (key : Bytes) : TxProg Bytes := do
  return ((← get key).map (·.value)).getD (List.replicate pageSize 0)

/-! ## Bits of a page -/

/-- A page that is too short makes the access panic. -/
def testBit (page : Bytes) (idx : Nat) : TxProg Bool :=
  match page[idx / 8]? with
  | some b => return b &&& (1 <<< UInt8.ofNat (idx % 8)) != 0
  | none => fail .panic

def setBit (page : Bytes) (idx : Nat) : Bytes :=
  page.set (idx / 8) (page.getD (idx / 8) 0 ||| (1 <<< UInt8.ofNat (idx % 8)))

/-- The bits of an item; a sub-filter without bits makes the division panic. -/
def hashPositions (item : Bytes) (f : SubFilterMeta) : TxProg (List Nat) :=
  let h1 := bloomHash item f.seed1
  let h2 := bloomHash item f.seed2
  if f.numBits = 0 && 0 < f.numHashes then fail .panic
  else return (List.range f.numHashes).map fun i =>
    (h1 + UInt64.ofNat i * h2).toNat % f.numBits

abbrev Pages := Std.ExtTreeMap Nat Bytes

def Pages.page (pages : Pages) (pos : Nat) : Bytes := (pages[pos / pageBits]?).getD []

/-- The pages of all positions. -/
def loadPages (p : ElementPrefix) (filterId : Nat) : List Nat → Pages → TxProg Pages
  | [], pages => return pages
  | pos :: rest, pages => do
    let pageNum := pos / pageBits
    if pages.contains pageNum then loadPages p filterId rest pages
    else
      let data ← readPage (pageKey p.bytes filterId pageNum)
      loadPages p filterId rest (pages.insert pageNum data)

def allSet (pages : Pages) : List Nat → TxProg Bool
  | [] => return true
  | pos :: rest => do
    if ← testBit (pages.page pos) (pos % pageBits) then allSet pages rest else return false

def setPositions : List Nat → Pages → TxProg Pages
  | [], pages => return pages
  | pos :: rest, pages => do
    let page := pages.page pos
    if ← testBit page (pos % pageBits) then setPositions rest pages
    else setPositions rest (pages.insert (pos / pageBits) (setBit page (pos % pageBits)))

def pageEntries (p : ElementPrefix) (filterId : Nat) (pages : Pages) : List Entry :=
  pages.toList.map fun np =>
    { key := pageKey p.bytes filterId np.1, value := np.2, metadata := typeBloom }

/-! ## Adding and testing -/

section

variable (ln : F64 → F64)

/-- The meta of a filter that `BF.ADD` creates. -/
def defaultMeta : BloomMeta where
  expansion := 2
  nonScaling := false
  filters := [newInitialSubFilter ln defCap defErr defExp false]

/-- A saturated filter gets another sub-filter. Its capacity is that of the last one times
a power of the expansion rate. -/
def BloomMeta.expanded (m : BloomMeta) (last : SubFilterMeta) : BloomMeta :=
  if last.capacity ≤ last.inserted && !m.nonScaling then
    { m with filters := m.filters ++
        [newSubFilter ln last.capacity (last.errorRate.mul (F64.ofInt 2)) m.expansion
          ((last.id + 1) % 2 ^ 64)] }
  else m

def BloomMeta.countInserted (m : BloomMeta) : BloomMeta :=
  { m with filters := m.filters.modify (m.filters.length - 1) fun f =>
      { f with inserted := (f.inserted + 1) % 2 ^ 64 } }

/-- The meta that an add starts from; a filter that is not there is created. -/
def metaForAdd (metaKey : Bytes) (p : ElementPrefix) : TxProg BloomMeta := do
  match ← readMetaOrNil metaKey with
  | some m => return m
  | none =>
    writeMeta metaKey (defaultMeta ln) p
    return defaultMeta ln

/-- Only the newest sub-filter is looked at. -/
def addOne (metaKey : Bytes) (p : ElementPrefix) (item : Bytes) : TxProg Int := do
  let m ← metaForAdd ln metaKey p
  let some last := m.filters.getLast? | fail .panic
  let m := m.expanded ln last
  let some filter := m.filters.getLast? | fail .panic
  let positions ← hashPositions item filter
  let pages ← loadPages p filter.id positions ∅
  if ← allSet pages positions then return 0
  let pages ← setPositions positions pages
  setAll (pageEntries p filter.id pages)
  writeMeta metaKey m.countInserted p
  return 1

def addAll (metaKey : Bytes) (p : ElementPrefix) : List Bytes → TxProg (List RespValue)
  | [] => return []
  | item :: rest => do
    let added ← addOne ln metaKey p item
    return .integer added :: (← addAll metaKey p rest)

end

def bitsSet (p : ElementPrefix) (filterId : Nat) : List Nat → TxProg Bool
  | [] => return true
  | pos :: rest => do
    let data ← readPage (pageKey p.bytes filterId (pos / pageBits))
    if ← testBit data (pos % pageBits) then bitsSet p filterId rest else return false

/-- The sub-filters in the order given. -/
def anyContains (p : ElementPrefix) (item : Bytes) : List SubFilterMeta → TxProg Bool
  | [] => return false
  | f :: rest => do
    let positions ← hashPositions item f
    if ← bitsSet p f.id positions then return true else anyContains p item rest

/-- The newest sub-filter comes first. -/
def existsOne (metaKey : Bytes) (p : ElementPrefix) (item : Bytes) : TxProg Bool := do
  match ← readMetaOrNil metaKey with
  | none => return false
  | some m => anyContains p item m.filters.reverse

def boolReply (b : Bool) : RespValue := .integer (if b then 1 else 0)

def existAll (metaKey : Bytes) (p : ElementPrefix) : List Bytes → TxProg (List RespValue)
  | [] => return []
  | item :: rest => do
    let here ← existsOne metaKey p item
    return boolReply here :: (← existAll metaKey p rest)

/-! ## Commands -/

structure InsertInfo where
  capacity : Nat
  error : F64
  expansion : Int
  noCreate : Bool
  nonScaling : Bool
  items : List Bytes
deriving DecidableEq, Repr

section

variable (ln : F64 → F64)

/-- An expansion below 1 is the default one; it is stored as a byte. -/
def newMeta (capacity : Nat) (errorRate : F64) (expansion : Int) (nonScaling : Bool) : BloomMeta :=
  let exp := if expansion < 1 then defExp else expansion
  { expansion := (exp % 256).toNat, nonScaling
    filters := [newInitialSubFilter ln capacity errorRate exp nonScaling] }

def reserve (metaKey : Bytes) (errorRate : F64) (capacity : Nat) (expansion : Int)
    (nonScaling : Bool) : TxProg RespValue := do
  match ← get metaKey with
  | some _ => fail .keyExists
  | none =>
    let p ← newNamespace (privateKey metaKey)
    writeMeta metaKey (newMeta ln capacity errorRate expansion nonScaling) p
    return .ok

def add (metaKey item : Bytes) : TxProg RespValue := do
  let p ← resolvePrefixForWrite metaKey (privateKey metaKey)
  return .integer (← addOne ln metaKey p item)

def madd (metaKey : Bytes) (items : List Bytes) : TxProg RespValue := do
  let p ← resolvePrefixForWrite metaKey (privateKey metaKey)
  return .array (some (← addAll ln metaKey p items))

def InsertInfo.newMeta (info : InsertInfo) : BloomMeta :=
  Bloom.newMeta ln (if info.capacity = 0 then defCap else info.capacity)
    (if info.error.le .zero then defErr else info.error) info.expansion info.nonScaling

def insert (metaKey : Bytes) (info : InsertInfo) : TxProg RespValue := do
  let p ← resolvePrefixForWrite metaKey (privateKey metaKey)
  match ← readMetaOrNil metaKey with
  | some _ => pure ()
  | none =>
    if info.noCreate then fail (.kv .keyNotFound)
    writeMeta metaKey (info.newMeta ln) p
  return .array (some (← addAll ln metaKey p info.items))

end

def exists_ (metaKey item : Bytes) : TxProg RespValue := do
  let p ← resolvePrefix metaKey (privateKey metaKey)
  return boolReply (← existsOne metaKey p item)

def mexists (metaKey : Bytes) (items : List Bytes) : TxProg RespValue := do
  let p ← resolvePrefix metaKey (privateKey metaKey)
  return .array (some (← existAll metaKey p items))

/-- A sum of `u64` values, rendered as a signed integer. -/
def total (m : BloomMeta) (f : SubFilterMeta → Nat) : RespValue :=
  .integer (asI64 ((m.filters.map f).sum % 2 ^ 64))

def info (metaKey : Bytes) : TxProg RespValue := do
  match ← readMetaOrNil metaKey with
  | none => fail (.kv .keyNotFound)
  | some m =>
    let name (s : String) : RespValue := .bulk (ascii s)
    return .array (some [name "Capacity", total m (·.capacity),
      name "Size", total m (·.numBits),
      name "Number of filters", .integer m.filters.length,
      name "Number of items inserted", total m (·.inserted),
      name "Expansion rate", .integer m.expansion])

/-! ## All commands on bloom filters -/

inductive Op where
  | reserve (errorRate : F64) (capacity : Nat) (expansion : Int) (nonScaling : Bool)
  | add (item : Bytes)
  | madd (items : List Bytes)
  | insert (info : InsertInfo)
  | exists_ (item : Bytes)
  | mexists (items : List Bytes)
  | info

def Op.run (ln : F64 → F64) (metaKey : Bytes) : Op → TxProg RespValue
  | .reserve errorRate capacity expansion nonScaling =>
    Bloom.reserve ln metaKey errorRate capacity expansion nonScaling
  | .add item => Bloom.add ln metaKey item
  | .madd items => Bloom.madd ln metaKey items
  | .insert args => Bloom.insert ln metaKey args
  | .exists_ item => Bloom.exists_ metaKey item
  | .mexists items => Bloom.mexists metaKey items
  | .info => Bloom.info metaKey

def Op.isMutating : Op → Bool
  | .reserve .. | .add _ | .madd _ | .insert _ => true
  | _ => false

end Invar.Bloom
