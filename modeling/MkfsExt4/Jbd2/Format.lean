/-
  The JBD2 journal on disk (`src/journal.rs`, and the header of `src/recovery.rs`).

  JBD2 is big-endian. `JournalHeader.decode` reads the journal superblock, `tags` the tags
  of a descriptor block in the four layouts the journal's features select, and
  `revokeRecords` the records of a revoke block.
-/
import MkfsExt4.Bytes
import MkfsExt4.Csum
import MkfsExt4.Error

namespace MkfsExt4.Jbd2

open Lib.Store Lib.Endian

/-- `JBD2_MAGIC_NUMBER` -/
def jbd2Magic : Nat := 0xc03b3998

/-- On-disk length of the journal superblock. -/
def journalSbLen : Nat := 1024

def descriptorBlock : Nat := 1
def commitBlock : Nat := 2
def superblockV1 : Nat := 3
def superblockV2 : Nat := 4
def revokeBlock : Nat := 5

/-- `JBD2_CRC32C_CHKSUM` -/
def crc32cChksum : Nat := 4

/-- JBD2 incompatible features. -/
def incompatRevoke : Nat := 0x1
def incompat64Bit : Nat := 0x2
def incompatAsyncCommit : Nat := 0x4
def incompatCsumV2 : Nat := 0x8
def incompatCsumV3 : Nat := 0x10
def incompatFastCommit : Nat := 0x20

/-- Incompatible journal features this code replays. -/
def knownIncompat : Nat :=
  incompatRevoke ||| incompat64Bit ||| incompatAsyncCommit ||| incompatCsumV2 ||| incompatCsumV3

/-- Descriptor tag flags (`JBD2_FLAG_*`). -/
def flagEscape : Nat := 1
def flagSameUuid : Nat := 2
def flagLastTag : Nat := 8

/-- Bytes of `journal_header_t`. -/
def headerLen : Nat := 12

/-- Bytes of `jbd2_journal_revoke_header_t`. -/
def revokeHeaderLen : Nat := 16

/-- Bytes of `struct jbd2_journal_block_tail`. -/
def blockTailLen : Nat := 4

/-- Offset of `h_chksum[0]` in `struct commit_header`. -/
def commitChksum : Nat := 16

/-- Offset of `h_commit_sec` in `struct commit_header`. -/
def commitSec : Nat := 48

/-! ## Field offsets within the journal superblock -/

def offBlocktype : Nat := 0x04
def offBlocksize : Nat := 0x0c
def offMaxlen : Nat := 0x10
def offFirst : Nat := 0x14
def offSequence : Nat := 0x18
def offStart : Nat := 0x1c
def offErrno : Nat := 0x20
def offFeatureCompat : Nat := 0x24
def offFeatureIncompat : Nat := 0x28
def offFeatureRoCompat : Nat := 0x2c
def offUuid : Nat := 0x30
def offChecksumType : Nat := 0x50
def offNumFcBlks : Nat := 0x54
def offChecksum : Nat := 0xfc

/-! ## 32-bit arithmetic -/

/-- `wrapping_add` on `u32`. -/
def wrappingAdd (x y : Nat) : Nat := (x + y) % 2 ^ 32

/-- `wrapping_sub` on `u32`. -/
def wrappingSub (x y : Nat) : Nat := (x + 2 ^ 32 - y) % 2 ^ 32

/-- `as i32` -/
def asI32 (x : Nat) : Int := if x < 2 ^ 31 then x else (x : Int) - 2 ^ 32

/-- `tid_gt`: sequence numbers compare modulo 2^32. -/
def tidGt (x y : Nat) : Bool := decide (0 < asI32 (wrappingSub x y))

/-- `tid_geq` -/
def tidGeq (x y : Nat) : Bool := decide (0 ≤ asI32 (wrappingSub x y))

/-! ## The journal superblock -/

/-- The journal superblock fields recovery reads. -/
structure JournalHeader where
  blocktype : Nat
  blocksize : Nat
  maxlen : Nat
  first : Nat
  sequence : Nat
  start : Nat
  errno : Int
  featureCompat : Nat
  featureIncompat : Nat
  featureRoCompat : Nat
  uuid : List UInt8
  checksumType : Nat
  numFcBlks : Nat
deriving DecidableEq

namespace JournalHeader

/-- Decode a journal superblock, checking the magic and block type. -/
def decode (buf : List UInt8) : Except String JournalHeader :=
  if buf.length < journalSbLen ∨ getU32Be buf 0 ≠ jbd2Magic then
    .error "journal superblock has no JBD2 magic"
  else
    let blocktype := getU32Be buf offBlocktype
    if blocktype ≠ superblockV1 ∧ blocktype ≠ superblockV2 then
      .error s!"journal superblock has block type {blocktype}"
    else
      let field := fun off => if blocktype = superblockV2 then getU32Be buf off else 0
      .ok
        { blocktype := blocktype
          blocksize := getU32Be buf offBlocksize
          maxlen := getU32Be buf offMaxlen
          first := getU32Be buf offFirst
          sequence := getU32Be buf offSequence
          start := getU32Be buf offStart
          errno := asI32 (getU32Be buf offErrno)
          featureCompat := field offFeatureCompat
          featureIncompat := field offFeatureIncompat
          featureRoCompat := field offFeatureRoCompat
          uuid := slice buf offUuid 16
          checksumType := if blocktype = superblockV2 then getU8 buf offChecksumType else 0
          numFcBlks := field offNumFcBlks }

def has (h : JournalHeader) (feature : Nat) : Bool := decide (h.featureIncompat &&& feature ≠ 0)

/-- Whether descriptor, revoke, commit and data blocks carry crc32c. -/
def csumV2OrV3 (h : JournalHeader) : Bool := h.has incompatCsumV2 || h.has incompatCsumV3

/-- Bytes of one descriptor tag, before any UUID: `journal_tag_bytes`. -/
def tagBytes (h : JournalHeader) : Nat :=
  if h.has incompatCsumV3 then 16
  else
    let size := if h.has incompatCsumV2 then 14 else 12
    if h.has incompat64Bit then size else size - 4

/-- Bytes of a descriptor or revoke block that records may fill. -/
def limit (h : JournalHeader) (buf : List UInt8) : Nat :=
  buf.length - if h.csumV2OrV3 then blockTailLen else 0

end JournalHeader

/-- Read a big-endian `u16` at `off`. -/
def getU16Be (buf : List UInt8) (off : Nat) : Nat := ofBe (slice buf off 2)

/-- Read a big-endian `u64` at `off`. -/
def getU64Be (buf : List UInt8) (off : Nat) : Nat := ofBe (slice buf off 8)

/-! ## Descriptor and revoke blocks -/

/-- A descriptor tag: its bytes, the home block and the flags. -/
structure Tag where
  bytes : List UInt8
  block : Nat
  flags : Nat
deriving DecidableEq

/-- The tag at `off` of a descriptor block. -/
def tagAt (h : JournalHeader) (buf : List UInt8) (off : Nat) : Tag :=
  let tag := slice buf off h.tagBytes
  let lo := getU32Be tag 0
  { bytes := tag
    block := if h.has incompat64Bit then lo ||| getU32Be tag 8 <<< 32 else lo
    -- The low half of a 32-bit field in a v3 tag, a 16-bit field in the others.
    flags := getU16Be tag 6 }

/-- The tags from `off` on. Every turn moves past a tag, so the bytes of the block bound
    the turns. -/
def tagsFrom (h : JournalHeader) (buf : List UInt8) : Nat → Nat → List Tag
  | 0, _ => []
  | fuel + 1, off =>
    if off + h.tagBytes ≤ h.limit buf then
      let t := tagAt h buf off
      let next := off + h.tagBytes + if t.flags &&& flagSameUuid = 0 then 16 else 0
      if t.flags &&& flagLastTag ≠ 0 then [t] else t :: tagsFrom h buf fuel next
    else []

/-- The tags in a descriptor block. -/
def tags (h : JournalHeader) (buf : List UInt8) : List Tag := tagsFrom h buf buf.length headerLen

/-- Bytes of one revoke record. -/
def recordBytes (h : JournalHeader) : Nat := if h.has incompat64Bit then 8 else 4

/-- The revoke record at `off`. -/
def recordAt (h : JournalHeader) (buf : List UInt8) (off : Nat) : Nat :=
  if h.has incompat64Bit then getU32Be buf off <<< 32 ||| getU32Be buf (off + 4)
  else getU32Be buf off

/-- The revoke records from `off` up to `count`. -/
def recordsFrom (h : JournalHeader) (buf : List UInt8) (count : Nat) : Nat → Nat → List Nat
  | 0, _ => []
  | fuel + 1, off =>
    if off + recordBytes h ≤ count then
      recordAt h buf off :: recordsFrom h buf count fuel (off + recordBytes h)
    else []

/-- Revoke records in a revoke block: `scan_revoke_records`. -/
def revokeRecords (h : JournalHeader) (buf : List UInt8) : Except String (List Nat) :=
  let count := getU32Be buf headerLen
  if h.limit buf < count then .error s!"revoke block claims {count} bytes of records"
  else .ok (recordsFrom h buf count count revokeHeaderLen)

end MkfsExt4.Jbd2
