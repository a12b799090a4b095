/-
  Journal recovery (`src/recovery.rs`): replaying a JBD2 journal into the filesystem.

  Of the filesystem, recovery reads and writes whole blocks and reads two superblock
  fields. `openAt` is `Journal::open` from the journal inode on: the walk of its blocks
  is an argument, every check after it stands in the source's order. A pass
  over the log is a loop over `PassState`; the source's `while` has no bound of its own,
  so the model's takes `fuel` turns and answers `none` when they run out.
-/
import MkfsExt4.Jbd2.Format
import MkfsExt4.Device
import MkfsExt4.Lib.Hoare

namespace MkfsExt4.Jbd2

open Lib.Store Lib.Endian Lib.Hoare

/-! ## The filesystem, as recovery sees it -/

structure Filesystem where
  dev : Device
  blockSize : Nat
  blocksCount : Nat

abbrev FsM := Cmd Error Filesystem

def readBlock (block : Nat) : FsM (List UInt8) := do
  let fs ← get
  let count := fs.blocksCount
  if count ≤ block then
    throw (.corrupt "block pointer" s!"block {block} is past the end of the {count}-block filesystem")
  else
    match fs.dev.readAt (block * fs.blockSize) fs.blockSize with
    | .error e => throw e
    | .ok buf => return buf

def writeBlock (block : Nat) (buf : List UInt8) : FsM Unit := do
  let fs ← get
  match fs.dev.writeAt (block * fs.blockSize) buf with
  | .error e => throw e
  | .ok dev => set { fs with dev := dev }

/-! ## Opening a journal -/

/-- An internal journal, opened for recovery. -/
structure Journal where
  header : JournalHeader
  raw : List UInt8
  map : List Nat
  csumSeed : UInt32
  last : Nat
deriving DecidableEq

/-- The journal superblock's checksum: over its 1024 bytes, the field itself zero. -/
def superblockCsum (raw : List UInt8) : Nat :=
  (Csum.crc32c 0xffffffff (splice (raw.take journalSbLen) offChecksum [0, 0, 0, 0])).toNat

/-- Refuse with `msg` when `bad` holds. -/
def refuse (bad : Prop) [Decidable bad] (msg : String) : Except String Unit :=
  if bad then .error msg else .ok ()

/-- The checks of `Journal::open` on the journal superblock `raw`, in the source's order,
    and the journal it builds over the block map `map`. -/
def accept (fs : Filesystem) (map : List Nat) (raw : List UInt8) : Except String Journal := do
  let blocks := map.length
  let header ← JournalHeader.decode raw
  let blocksize := header.blocksize
  let blockSize := fs.blockSize
  refuse (blocksize ≠ blockSize)
    s!"journal block size {blocksize} differs from the filesystem's {blockSize}"
  refuse (header.has incompatFastCommit)
    "the journal uses fast_commit, which this checker does not replay"
  let unknown := header.featureIncompat - (header.featureIncompat &&& knownIncompat)
  refuse (unknown ≠ 0) ("unknown journal incompatible features " ++ hex 0 unknown)
  refuse (header.featureRoCompat ≠ 0)
    ("unknown journal read-only features " ++ hex 0 header.featureRoCompat)
  refuse (header.has incompatCsumV2 ∧ header.has incompatCsumV3)
    "the journal superblock claims both csum v2 and v3"
  let type := header.checksumType
  refuse (header.csumV2OrV3 ∧ type ≠ crc32cChksum) s!"journal checksum type {type} is not crc32c"
  refuse (header.csumV2OrV3 ∧ getU32Be raw offChecksum ≠ superblockCsum raw)
    "journal superblock checksum does not match"
  let maxlen := header.maxlen
  let first := header.first
  let start := header.start
  refuse (blocks < maxlen)
    s!"journal superblock claims {maxlen} blocks, the inode holds {blocks}"
  refuse (first = 0 ∨ maxlen ≤ first) s!"journal first block {first} is outside 1..{maxlen}"
  refuse (start ≠ 0 ∧ (start < first ∨ maxlen ≤ start))
    s!"journal log start {start} is outside {first}..{maxlen}"
  pure
    { header := header
      raw := raw
      map := map.take maxlen
      csumSeed := Csum.crc32c 0xffffffff header.uuid
      last := maxlen }

/-- Physical block of each of the journal's `blocks` logical blocks, from the data blocks
    (logical, physical) that a walk of the journal inode visits. -/
def gatherMap (blocks : Nat) (walk : List (Nat × Nat)) : List Nat :=
  walk.foldl (fun map b => if b.1 < blocks then map.set b.1 b.2 else map) (List.replicate blocks 0)

/-- `Journal::open`, once the journal inode is known to be in use: an inode of `size` bytes
    whose data blocks are `walk`. -/
def openAt (size : Nat) (walk : List (Nat × Nat)) : FsM (Except String Journal) := do
  let fs ← get
  let blocks := size / fs.blockSize
  let map := gatherMap blocks walk
  let bad := map.findIdx fun physical => physical = 0 ∨ fs.blocksCount ≤ physical
  if blocks < 2 then
    return .error s!"the journal inode is {size} bytes, too small to be a journal"
  else if bad < blocks then
    return .error s!"journal block {bad} is not mapped to a block of the filesystem"
  else do
    let raw ← readBlock (map.getD 0 0)
    return accept fs map raw

/-! ## Reading the log -/

/-- What a replay did. -/
structure Recovery where
  transactions : Nat × Nat := (0, 0)
  blocksReplayed : Nat := 0
  revokeHits : Nat := 0
  revokes : Nat := 0
  errors : List String := []
  errno : Int := 0

namespace Journal

/-- The next log block after `block`, wrapping from the end of the log back to `s_first`. -/
def wrap (j : Journal) (block : Nat) : Nat :=
  if j.last ≤ block then block - (j.last - j.header.first) else block

/-- Read a log block. A block past the map is the source's panic, an error here. -/
def read (j : Journal) (block : Nat) : FsM (List UInt8) :=
  match j.map[block]? with
  | some physical => readBlock physical
  | none => throw (.corrupt "journal block" "index out of bounds")

/-- `jbd2_descriptor_block_csum_verify`, for descriptor and revoke blocks. -/
def blockTailOk (j : Journal) (buf : List UInt8) : Bool :=
  if j.header.csumV2OrV3 then
    let off := buf.length - blockTailLen
    getU32Be buf off == (Csum.crc32c j.csumSeed (splice buf off [0, 0, 0, 0])).toNat
  else true

/-- `jbd2_commit_block_csum_verify`. -/
def commitOk (j : Journal) (buf : List UInt8) : Bool :=
  if j.header.csumV2OrV3 then
    getU32Be buf commitChksum ==
      (Csum.crc32c j.csumSeed (splice buf commitChksum [0, 0, 0, 0])).toNat
  else true

/-- The crc32c of one logged block. -/
def dataCsum (j : Journal) (data : List UInt8) (sequence : Nat) : Nat :=
  (Csum.crc32c (Csum.crc32c j.csumSeed (toBe 4 sequence)) data).toNat

/-- `jbd2_block_tag_csum_verify`. -/
def dataOk (j : Journal) (tag data : List UInt8) (sequence : Nat) : Bool :=
  if j.header.csumV2OrV3 then
    if j.header.has incompatCsumV3 then getU32Be tag 12 == j.dataCsum data sequence
    else getU16Be tag 4 == j.dataCsum data sequence % 2 ^ 16
  else true

/-! ## Pass one: the end of the log -/

structure ScanState where
  nextCommit : Nat
  nextBlock : Nat
  lastCommitTime : Nat := 0
  needCheckCommitTime : Bool := false

/-- The scan from `s` on, with `turns` blocks left to read. -/
def scanFrom (j : Journal) : Nat → ScanState → Recovery → FsM (Recovery × Except String Nat)
  | 0, s, r => return (r, .ok s.nextCommit)
  | turns + 1, s, r => do
    let buf ← j.read s.nextBlock
    let nextCommit := s.nextCommit
    let nextBlock := j.wrap (s.nextBlock + 1)
    if getU32Be buf 0 ≠ jbd2Magic ∨ getU32Be buf 8 ≠ nextCommit then
      return (r, .ok nextCommit)
    else
      let kind := getU32Be buf 4
      if kind = descriptorBlock then
        -- Whether a bad checksum matters is settled at the commit.
        j.scanFrom turns
          { s with
            nextBlock := j.wrap (nextBlock + (tags j.header buf).length)
            needCheckCommitTime := s.needCheckCommitTime || !j.blockTailOk buf } r
      else if kind = commitBlock then
        let commitTime := getU64Be buf commitSec
        if !j.commitOk buf then
          if commitTime < s.lastCommitTime then return (r, .ok nextCommit)
          else
            let msg := s!"journal transaction {nextCommit} was corrupt, replay was aborted"
            let errno := if j.header.has incompatAsyncCommit then r.errno else -22
            return ({ r with errors := r.errors ++ [msg], errno }, .ok nextCommit)
        else if s.needCheckCommitTime then
          if s.lastCommitTime ≤ commitTime then
            return (r, .error s!"invalid checksum found in journal transaction {nextCommit}")
          else return (r, .ok nextCommit)
        else
          j.scanFrom turns
            { nextCommit := wrappingAdd nextCommit 1
              nextBlock
              lastCommitTime := commitTime
              needCheckCommitTime := false } r
      else if kind = revokeBlock then
        j.scanFrom turns
          { s with
            nextBlock
            needCheckCommitTime := s.needCheckCommitTime || !j.blockTailOk buf } r
      else return (r, .ok nextCommit)

/-- Find the end of the log: one past the last complete transaction, or an error that fails
    the whole recovery. A scan that has read every block once is done. -/
def scan (j : Journal) (r : Recovery) : FsM (Recovery × Except String Nat) :=
  j.scanFrom j.last { nextCommit := j.header.sequence, nextBlock := j.header.start } r

/-! ## Passes two and three: revoke records, then the replay -/

structure PassState where
  nextCommit : Nat
  nextBlock : Nat
  /-- The latest transaction that revoked each block. -/
  revoked : Nat → Option Nat
  recovery : Recovery

/-- One tag of a descriptor: the logged block goes home unless it was revoked. -/
def replayTag (j : Journal) (replay : Bool) (s : PassState) (tag : Tag) : FsM PassState := do
  let logged := s.nextBlock
  let s := { s with nextBlock := j.wrap (s.nextBlock + 1) }
  let r := s.recovery
  if !replay then return s
  else if (s.revoked tag.block).any fun seq => !tidGt s.nextCommit seq then
    return { s with recovery := { r with revokeHits := r.revokeHits + 1 } }
  else do
    let data ← j.read logged
    let home := tag.block
    if !j.dataOk tag.bytes data s.nextCommit then
      let msg := s!"invalid checksum recovering data block {home} in the journal"
      return { s with recovery := { r with errors := r.errors ++ [msg] } }
    else if (← get).blocksCount ≤ home then
      let msg := s!"journal block for block {home}, past the end of the filesystem"
      return { s with recovery := { r with errors := r.errors ++ [msg] } }
    else do
      let data := if tag.flags &&& flagEscape ≠ 0 then putU32Be data 0 jbd2Magic else data
      writeBlock home data
      return { s with recovery := { r with blocksReplayed := r.blocksReplayed + 1 } }

/-- One revoke record: the block is revoked by this transaction, or a later one did. -/
def revokeRecord (s : PassState) (block : Nat) : PassState :=
  let seq := (s.revoked block).getD s.nextCommit
  { s with
    revoked := Function.update s.revoked block
      (some (if tidGt s.nextCommit seq then s.nextCommit else seq))
    recovery := { s.recovery with revokes := s.recovery.revokes + 1 } }

/-- The pass from `s` on. `some (s, none)` is the loop's end, `some (s, some e)` an early
    return with the error `e`. -/
def passFrom (j : Journal) (finish : Nat) (replay : Bool) :
    Nat → PassState → FsM (Option (PassState × Option String))
  | 0, s => return if tidGeq s.nextCommit finish then some (s, none) else none
  | fuel + 1, s => do
    if tidGeq s.nextCommit finish then return some (s, none)
    else
      let buf ← j.read s.nextBlock
      let nextCommit := s.nextCommit
      let s := { s with nextBlock := j.wrap (s.nextBlock + 1) }
      if getU32Be buf 0 ≠ jbd2Magic ∨ getU32Be buf 8 ≠ nextCommit then return some (s, none)
      else
        let kind := getU32Be buf 4
        if kind = descriptorBlock then
          if replay && !j.blockTailOk buf then
            return some (s, some
              s!"invalid checksum on a descriptor block of journal transaction {nextCommit}")
          else do
            let s ← (tags j.header buf).foldlM (j.replayTag replay) s
            j.passFrom finish replay fuel s
        else if kind = commitBlock then
          j.passFrom finish replay fuel { s with nextCommit := wrappingAdd nextCommit 1 }
        else if kind = revokeBlock then
          if replay then j.passFrom finish replay fuel s
          else
            match revokeRecords j.header buf with
            | .error e => return some (s, some e)
            | .ok records => j.passFrom finish replay fuel (records.foldl revokeRecord s)
        else return some (s, none)

/-- One pass over the log from `s_start` up to the transaction `finish`. -/
def revokeOrReplay (j : Journal) (fuel finish : Nat) (revoked : Nat → Option Nat)
    (replay : Bool) (recovery : Recovery) :
    FsM (Option (PassState × Except String Unit)) := do
  let s : PassState :=
    { nextCommit := j.header.sequence, nextBlock := j.header.start, revoked, recovery }
  match ← j.passFrom finish replay fuel s with
  | none => return none
  | some (s, some e) => return some (s, .error e)
  | some (s, none) =>
    let nextCommit := s.nextCommit
    if nextCommit ≠ finish then
      return some (s, .error
        s!"journal recovery ended at transaction {nextCommit}, expected {finish}")
    else return some (s, .ok ())

/-! ## Marking the journal empty -/

/-- Recompute the journal superblock checksum, under csum v2/v3. -/
def stamp (j : Journal) (raw : List UInt8) : List UInt8 :=
  if j.header.csumV2OrV3 then
    putU32Be (splice raw offChecksum [0, 0, 0, 0]) offChecksum (superblockCsum raw)
  else raw

/-- The journal superblock of an empty log that starts again at `sequence`. -/
def emptied (j : Journal) (sequence : Nat) : List UInt8 :=
  j.stamp (splice (splice (putU32Be j.raw offSequence sequence) offStart [0, 0, 0, 0])
    offErrno [0, 0, 0, 0])

/-- Mark the journal empty, starting again at `sequence`, and clear `s_errno`. -/
def reset (j : Journal) (sequence : Nat) : FsM Journal := do
  let raw := j.emptied sequence
  writeBlock (j.map.getD 0 0) raw
  return { j with raw, header := { j.header with sequence, start := 0, errno := 0 } }

end Journal

/-- Replay the journal into the filesystem and mark the journal empty. -/
def recover (fuel : Nat) (j : Journal) : FsM (Option (Recovery × Journal)) := do
  let recovery : Recovery := { errno := j.header.errno }
  let start := j.header.sequence
  if j.header.start = 0 then
    let j ← j.reset (wrappingAdd start 1)
    return some ({ recovery with transactions := (start, start) }, j)
  else do
    let (recovery, scanned) ← j.scan recovery
    match scanned with
    | .error e =>
      let j ← j.reset start
      return some ({ recovery with errors := recovery.errors ++ [e] }, j)
    | .ok finish =>
      let recovery := { recovery with transactions := (start, finish) }
      match ← j.revokeOrReplay fuel finish (fun _ => none) false recovery with
      | none => return none
      | some (s, .error e) =>
        let j ← j.reset start
        return some ({ s.recovery with errors := s.recovery.errors ++ [e] }, j)
      | some (s, .ok ()) =>
        let before := s.recovery.errors.length
        match ← j.revokeOrReplay fuel finish s.revoked true s.recovery with
        | none => return none
        | some (s, .error e) =>
          let j ← j.reset start
          return some ({ s.recovery with errors := s.recovery.errors ++ [e] }, j)
        | some (s, .ok ()) =>
          -- A data block that failed its checksum was skipped: the recovery has failed.
          let sequence := if s.recovery.errors.length = before then wrappingAdd finish 1 else start
          let j ← j.reset sequence
          return some (s.recovery, j)

end MkfsExt4.Jbd2
