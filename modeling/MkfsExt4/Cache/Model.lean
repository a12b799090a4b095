/-
  The write-back block cache (`src/cache.rs`).

  `CachedDevice` keeps a bounded map of cache blocks over an inner device. An entry holds
  a block's bytes, the contiguous range of them that means anything (`valid`) and the
  subrange the device does not have yet (`dirty`). Every operation is a command that
  keeps what it did to the map when an inner call fails, as the source does behind `?`.

  The inner device answers from a script: `fails k n` says whether the `n`-th call of
  kind `k` fails. A call that fails leaves the device unchanged.

  Not modelled: the statistics counters and the lock (one operation at a time). Kept for the
  proofs alone: what each call asked of the inner device, and the most blocks held so far.
-/
import MkfsExt4.Device
import MkfsExt4.Lib.Hoare
import Mathlib.Data.List.AList
import Mathlib.Data.List.Sort

namespace MkfsExt4.Cache

open Lib.Store Lib.Hoare

/-- One cached block. Both ranges are half-open. -/
structure Entry where
  data : List UInt8
  valid : Nat × Nat
  dirty : Nat × Nat
  tick : Nat

def Entry.isDirty (e : Entry) : Bool := decide (e.dirty.1 < e.dirty.2)

/-- The kinds of call the cache makes on the inner device. -/
inductive Call where
  | read
  | write
  | zeroes
  | flush
deriving DecidableEq

/-- What one call asks of the inner device. -/
structure Request where
  kind : Call
  offset : Nat
  len : Nat

/-- The inner device: its bytes, the script of its failures, the calls made so far and what
    each of them asked, the latest first. -/
structure Inner where
  dev : Device
  fails : Call → Nat → Bool
  made : Call → Nat := fun _ => 0
  requests : List Request := []

/-- `peak` is the most blocks the map ever held. -/
structure CachedDevice where
  inner : Inner
  blockSize : Nat
  maxBlocks : Nat
  map : AList fun _ : Nat => Entry
  tick : Nat
  peak : Nat := 0

abbrev CacheM := Cmd Error CachedDevice

/-- `with_geometry`. `none` is the failed assertion. -/
def withGeometry (inner : Inner) (blockSize capacityBytes : Nat) : Option CachedDevice :=
  if blockSize.isPowerOfTwo ∧ 512 ≤ blockSize then
    some
      { inner := inner
        blockSize := blockSize
        maxBlocks := max (capacityBytes / blockSize) 8
        map := ∅
        tick := 0 }
  else none

/-! ## Calls on the inner device -/

/-- One call of kind `k` for the `len` bytes at `offset`: it fails by the script, or does
    `f`. -/
def innerCall {α : Type} (k : Call) (offset len : Nat)
    (f : Device → Except Error (α × Device)) : CacheM α := do
  let c ← get
  let n := c.inner.made k
  let fails := c.inner.fails k n
  set { c with
    inner.made := Function.update c.inner.made k (n + 1)
    inner.requests := ⟨k, offset, len⟩ :: c.inner.requests }
  if fails then throw (.io offset)
  match f c.inner.dev with
  | .error e => throw e
  | .ok (a, d) => do
    modify fun c => { c with inner.dev := d }
    return a

def innerReadAt (offset len : Nat) : CacheM (List UInt8) :=
  innerCall .read offset len fun d => (d.readAt offset len).map fun bs => (bs, d)

def innerWriteAt (offset : Nat) (buf : List UInt8) : CacheM Unit :=
  innerCall .write offset buf.length fun d => (d.writeAt offset buf).map fun d' => ((), d')

def innerWriteZeroes (offset len : Nat) : CacheM Unit :=
  innerCall .zeroes offset len fun d => (d.writeZeroes offset len).map fun d' => ((), d')

def innerFlush : CacheM Unit :=
  innerCall .flush 0 0 fun d => .ok ((), d)

/-! ## Blocks -/

namespace CachedDevice

/-- Byte length of block `blk`: `block_size`, except a short final block. -/
def blockLen (c : CachedDevice) (blk : Nat) : Nat :=
  min c.blockSize (c.inner.dev.size - blk * c.blockSize)

def insert (c : CachedDevice) (blk : Nat) (e : Entry) : CachedDevice :=
  { c with
    map := c.map.insert blk e
    peak := max c.peak (c.map.insert blk e).entries.length }

def erase (c : CachedDevice) (blk : Nat) : CachedDevice :=
  { c with map := c.map.erase blk }

end CachedDevice

def touch : CacheM Nat := do
  modify fun c => { c with tick := c.tick + 1 }
  return (← get).tick

/-- Read blocks `firstBlk .. firstBlk + blocks` from the device in one operation. -/
def readRunFromInner (firstBlk blocks : Nat) : CacheM (List UInt8) := do
  let c ← get
  let len := ((List.range blocks).map fun i => c.blockLen (firstBlk + i)).sum
  innerReadAt (firstBlk * c.blockSize) len

/-- `e` with the bytes outside `valid` taken from the device, and all of it valid. -/
def Entry.filled (e : Entry) (device : List UInt8) : Entry :=
  { e with
    data := splice (splice e.data 0 (device.take e.valid.1)) e.valid.2 (device.drop e.valid.2)
    valid := (0, e.data.length) }

/-- Bring the `valid` range of the entry `e` at `blk` to the whole block. -/
def fillEntry (blk : Nat) (e : Entry) : CacheM Entry := do
  let device ← readRunFromInner blk 1
  modify (·.insert blk (e.filled device))
  return e.filled device

/-! ## Write-back -/

/-- The bytes gathered and not yet written: where they go and what they are. -/
structure Run where
  start : Nat := 0
  bytes : List UInt8 := []

/-- The cache without the dirty entry `e`, or with it marked clean. -/
def CachedDevice.cleaned (c : CachedDevice) (blk : Nat) (e : Entry) (remove : Bool) :
    CachedDevice :=
  if remove then c.erase blk else c.insert blk { e with dirty := (0, 0) }

/-- One turn of the write-back loop: gather the dirty range of `blk`, and write the run
    out unless the next block's dirty bytes continue it. -/
def writeBackBlock (blocks : List Nat) (remove : Bool) (run : Run) (blk : Nat) :
    CacheM Run := do
  let c ← get
  match c.map.lookup blk with
  | none => return run
  | some e =>
    if e.isDirty then do
      let start := if run.bytes.isEmpty then blk * c.blockSize + e.dirty.1 else run.start
      let bytes := run.bytes ++ slice e.data e.dirty.1 (e.dirty.2 - e.dirty.1)
      -- The map is edited before the inner call: the range is no longer recorded as
      -- dirty when the call fails.
      modify (·.cleaned blk e remove)
      let c ← get
      let nextJoins := e.dirty.2 == e.data.length && blocks.contains (blk + 1) &&
        ((c.map.lookup (blk + 1)).map fun n => n.isDirty && n.dirty.1 == 0).getD false
      if nextJoins then return { start := start, bytes := bytes }
      else do
        innerWriteAt start bytes
        return { start := start, bytes := [] }
    else do
      if remove then modify (·.erase blk)
      return run

/-- Write back the dirty ranges of `blocks`, which must be sorted. -/
def writeBack (blocks : List Nat) (remove : Bool) : CacheM Unit := do
  let _ ← blocks.foldlM (writeBackBlock blocks remove) {}
  return ()

/-- Older first; a tie goes to the lower block. -/
def olderOrEq (a b : Nat × Nat) : Prop := a.1 < b.1 ∨ (a.1 = b.1 ∧ a.2 ≤ b.2)

instance : DecidableRel olderOrEq := fun a b =>
  inferInstanceAs (Decidable (a.1 < b.1 ∨ (a.1 = b.1 ∧ a.2 ≤ b.2)))

/-- The least recently used eighth of the cache, in device order. -/
def CachedDevice.victims (c : CachedDevice) : List Nat :=
  let batch := max (c.maxBlocks / 8) 1
  let byAge := (c.map.entries.map fun x => (x.2.tick, x.1)).insertionSort olderOrEq
  ((byAge.take batch).map Prod.snd).insertionSort (· ≤ ·)

/-- Make room for one more entry, evicting a batch if the cache is full. -/
def makeRoom : CacheM Unit := do
  let c ← get
  if c.map.entries.length < c.maxBlocks then return ()
  else writeBack c.victims true

/-! ## Reads -/

/-- How many of the blocks from `blk` on are absent, looking at no more than `n`. -/
def absentRun (c : CachedDevice) : Nat → Nat → Nat
  | 0, _ => 0
  | n + 1, blk => if (c.map.lookup blk).isNone then absentRun c n (blk + 1) + 1 else 0

/-- Put the blocks of one device read into the cache, `data` being what is left of it. -/
def insertRun (data : List UInt8) (blk : Nat) : CacheM (List UInt8) := do
  let blen := (← get).blockLen blk
  makeRoom
  let tick ← touch
  modify (·.insert blk { data := data.take blen, valid := (0, blen), dirty := (0, 0), tick })
  return data.drop blen

/-- Serve what a read of `offset .. finish` wants of the cached block `blk`. -/
def serveCached (offset finish blk : Nat) (e : Entry) (buf : List UInt8) :
    CacheM (List UInt8) := do
  let c ← get
  let bstart := blk * c.blockSize
  let s := max offset bstart - bstart
  let t := min finish (bstart + c.blockLen blk) - bstart
  let e ← if s < e.valid.1 ∨ e.valid.2 < t then fillEntry blk e else pure e
  let tick ← touch
  modify (·.insert blk { e with tick })
  return splice buf (bstart + s - offset) (slice e.data s (t - s))

/-- Serve what the read wants of the `n` absent blocks from `blk` on, with one device
    read, and keep them. -/
def serveAbsent (offset finish blk n : Nat) (buf : List UInt8) : CacheM (List UInt8) := do
  let c ← get
  let bstart := blk * c.blockSize
  let data ← readRunFromInner blk n
  let rs := max offset bstart
  let re := min finish (bstart + data.length)
  -- The caller is served from the run before insertion can evict anything.
  let buf := splice buf (rs - offset) (slice data (rs - bstart) (re - rs))
  let _ ← (List.range' blk n).foldlM insertRun data
  return buf

/-- The loop of `read_at`: fill `buf`, which starts at device byte `offset`, from block
    `blk` to block `last`. Every turn serves at least one block, so `fuel` turns are
    enough for a loop with at most `fuel` blocks to go. -/
def readBlocks (offset finish last : Nat) : Nat → Nat → List UInt8 → CacheM (List UInt8)
  | 0, _, buf => return buf
  | fuel + 1, blk, buf => do
    if last < blk then return buf
    else
      let c ← get
      match c.map.lookup blk with
      | some e => do
        let buf ← serveCached offset finish blk e buf
        readBlocks offset finish last fuel (blk + 1) buf
      | none => do
        let n := absentRun c (last + 1 - blk) blk
        let buf ← serveAbsent offset finish blk n buf
        readBlocks offset finish last fuel (blk + n) buf

def readAt (offset len : Nat) : CacheM (List UInt8) := do
  let c ← get
  match checkBounds offset len c.inner.dev.size with
  | .error e => throw e
  | .ok () =>
    if len = 0 then return []
    else
      let first := offset / c.blockSize
      let last := (offset + len - 1) / c.blockSize
      readBlocks offset (offset + len) last (last + 1 - first) first (List.replicate len 0)

/-! ## Writes -/

/-- The entry after `piece` is written over bytes `s .. t` of the block. -/
def Entry.write (e : Entry) (s t : Nat) (piece : List UInt8) (tick : Nat) : Entry :=
  { data := splice e.data s piece
    valid := (min e.valid.1 s, max e.valid.2 t)
    -- The hull may cover clean valid bytes between the two dirty ranges.
    dirty := if e.isDirty then (min e.dirty.1 s, max e.dirty.2 t) else (s, t)
    tick := tick }

/-- The part of a write of `buf` at `offset` that falls into block `blk`. -/
def writeBlock (offset : Nat) (buf : List UInt8) (blk : Nat) : CacheM Unit := do
  let c ← get
  let bstart := blk * c.blockSize
  let blen := c.blockLen blk
  let s := max offset bstart - bstart
  let t := min (offset + buf.length) (bstart + blen) - bstart
  let e ← match c.map.lookup blk with
    | some e => pure e
    | none => do
      makeRoom
      let tick ← touch
      let e : Entry := { data := List.replicate blen 0, valid := (s, s), dirty := (s, s), tick }
      modify (·.insert blk e)
      pure e
  -- A write that would leave a gap of unknown bytes fills the block first.
  let e ← if e.valid.2 < s ∨ t < e.valid.1 then fillEntry blk e else pure e
  let tick ← touch
  modify (·.insert blk (e.write s t (slice buf (bstart + s - offset) (t - s)) tick))

/-- The blocks a request of `len > 0` bytes at `offset` touches. -/
def CachedDevice.touched (c : CachedDevice) (offset len : Nat) : List Nat :=
  let first := offset / c.blockSize
  List.range' first ((offset + len - 1) / c.blockSize + 1 - first)

def writeAt (offset : Nat) (buf : List UInt8) : CacheM Unit := do
  let c ← get
  match checkBounds offset buf.length c.inner.dev.size with
  | .error e => throw e
  | .ok () =>
    if buf = [] then return ()
    else forM (c.touched offset buf.length) (writeBlock offset buf)

/-! ## Flush and zeroes -/

def CachedDevice.dirtyBlocks (c : CachedDevice) : List Nat :=
  ((c.map.entries.filter fun x => x.2.isDirty).map Sigma.fst).insertionSort (· ≤ ·)

def flush : CacheM Unit := do
  writeBack (← get).dirtyBlocks false
  innerFlush

/-- What `write_zeroes` does to the cached copy of block `blk`. -/
def zeroBlock (offset len blk : Nat) : CacheM Unit := do
  let c ← get
  let bstart := blk * c.blockSize
  match c.map.lookup blk with
  | none => return ()
  | some e =>
    let s := max offset bstart - bstart
    let t := min (offset + len) (bstart + e.data.length) - bstart
    if s = 0 ∧ t = e.data.length then modify (·.erase blk)
    else
      let z0 := max s e.valid.1
      let z1 := min t e.valid.2
      if z0 < z1 then
        modify (·.insert blk { e with data := splice e.data z0 (List.replicate (z1 - z0) 0) })

def writeZeroes (offset len : Nat) : CacheM Unit := do
  let c ← get
  match checkBounds offset len c.inner.dev.size with
  | .error e => throw e
  | .ok () =>
    if len = 0 then return ()
    else do
      forM (c.touched offset len) (zeroBlock offset len)
      innerWriteZeroes offset len

/-! ## Sequences of operations -/

inductive Op where
  | readAt (offset len : Nat)
  | writeAt (offset : Nat) (buf : List UInt8)
  | writeZeroes (offset len : Nat)
  | flush

/-- One operation. Only a read returns bytes. -/
def Op.run : Op → CacheM (List UInt8)
  | .readAt offset len => Cache.readAt offset len
  | .writeAt offset buf => do Cache.writeAt offset buf; return []
  | .writeZeroes offset len => do Cache.writeZeroes offset len; return []
  | .flush => do Cache.flush; return []

/-- The outcomes of the operations of `ops`, and the cache they leave. An operation that
    fails does not stop the sequence. -/
def runOps : CachedDevice → List Op → List (Except Error (List UInt8)) × CachedDevice
  | c, [] => ([], c)
  | c, op :: ops =>
    let r := exec op.run c
    let rest := runOps r.2 ops
    (r.1 :: rest.1, rest.2)

end MkfsExt4.Cache
