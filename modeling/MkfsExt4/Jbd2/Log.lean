/-
  What a JBD2 log says, apart from the code that reads it.

  A log is a list of committed transactions, each a mix of descriptors with their data
  blocks and of revoke blocks. `LogAt` lays it out in the journal's blocks, field by
  field as JBD2 defines them. `lastData` is what the log says about a home block: the
  data of the last tag for it in a transaction later than every revoke of it.

  `WellFormed` adds what makes a journal hold such a log: it fits, its sequence numbers
  stay within the half range in which they compare modulo 2^32, its home blocks are
  blocks of the filesystem outside the journal, and what follows the last commit is no
  commit of the next transaction.
-/
import MkfsExt4.Jbd2.Recovery

namespace MkfsExt4.Jbd2

open Lib.Store Lib.Endian

/-! ## Logs -/

/-- A tag: where its block belongs, its flags, and the block as logged. -/
structure LogTag where
  home : Nat
  flags : Nat
  logged : List UInt8

/-- The block a tag stands for, with the magic put back if it was escaped. -/
def LogTag.data (t : LogTag) : List UInt8 :=
  if t.flags &&& flagEscape ≠ 0 then putU32Be t.logged 0 jbd2Magic else t.logged

/-- A part of a transaction. -/
inductive Item where
  | descriptor (tags : List LogTag)
  | revoke (blocks : List Nat)

namespace Item

/-- Journal blocks the item takes. -/
def size : Item → Nat
  | .descriptor tags => 1 + tags.length
  | .revoke _ => 1

def tags : Item → List LogTag
  | .descriptor tags => tags
  | .revoke _ => []

def revokes : Item → List Nat
  | .descriptor _ => []
  | .revoke blocks => blocks

end Item

/-- A committed transaction: its items in log order. The commit block follows them. -/
abbrev Transaction := List Item

def Transaction.size (tx : Transaction) : Nat := (tx.map Item.size).sum + 1

def Transaction.tags (tx : Transaction) : List LogTag := tx.flatMap Item.tags

def Transaction.revokes (tx : Transaction) : List Nat := tx.flatMap Item.revokes

/-- The tags of the log in log order, each with its transaction's place in the log. -/
def logTags : Nat → List Transaction → List (Nat × LogTag)
  | _, [] => []
  | k, tx :: txs => (tx.tags.map fun t => (k, t)) ++ logTags (k + 1) txs

/-- The revoke records of the log, each with its transaction's place in the log. -/
def logRevokes : Nat → List Transaction → List (Nat × Nat)
  | _, [] => []
  | k, tx :: txs => (tx.revokes.map fun b => (k, b)) ++ logRevokes (k + 1) txs

/-- The sequence number of the `k`-th transaction of a log that starts at `seq`. -/
def seqOf (seq k : Nat) : Nat := wrappingAdd seq k

/-- The tag's transaction is later (mod 2^32) than every revoke of its block. -/
def survives (seq : Nat) (txs : List Transaction) (x : Nat × LogTag) : Bool :=
  (logRevokes 0 txs).all fun r => r.2 != x.2.home || tidGt (seqOf seq x.1) (seqOf seq r.1)

/-- What the log says block `b` holds, if anything: the data of the last tag for it among
    those that survive. -/
def lastData (seq : Nat) (txs : List Transaction) (b : Nat) : Option (List UInt8) :=
  (((logTags 0 txs).filter fun x => survives seq txs x && x.2.home == b).getLast?).map
    fun x => x.2.data

/-! ## Layout -/

/-- The header of a journal block. -/
structure HeaderIs (buf : List UInt8) (kind seq : Nat) : Prop where
  magic : getU32Be buf 0 = jbd2Magic
  kind : getU32Be buf 4 = kind
  seq : getU32Be buf 8 = seq

/-- The fields of the tag at `off` of a descriptor of transaction `seq`. -/
structure TagIs (j : Journal) (seq : Nat) (buf : List UInt8) (off : Nat) (t : LogTag) : Prop where
  low : getU32Be buf off = t.home % 2 ^ 32
  high : if j.header.has incompat64Bit then getU32Be buf (off + 8) = t.home / 2 ^ 32
    else t.home < 2 ^ 32
  flags : getU16Be buf (off + 6) = t.flags
  csumV3 : j.header.has incompatCsumV3 = true →
    getU32Be buf (off + 12) = j.dataCsum t.logged seq
  csumV2 : j.header.has incompatCsumV2 = true → j.header.has incompatCsumV3 = false →
    getU16Be buf (off + 4) = j.dataCsum t.logged seq % 2 ^ 16

/-- Where the tag after one at `off` stands: past it, and past its UUID if it has one. -/
def nextTag (h : JournalHeader) (off flags : Nat) : Nat :=
  off + h.tagBytes + if flags &&& flagSameUuid = 0 then 16 else 0

/-- The tags of a descriptor from `off` on. The last one is marked, or fills the block. -/
def TagsAt (j : Journal) (seq : Nat) (buf : List UInt8) : Nat → List LogTag → Prop
  | _, [] => False
  | off, [t] => off + j.header.tagBytes ≤ j.header.limit buf ∧ TagIs j seq buf off t ∧
      (t.flags &&& flagLastTag ≠ 0 ∨
        j.header.limit buf < nextTag j.header off t.flags + j.header.tagBytes)
  | off, t :: t' :: ts => off + j.header.tagBytes ≤ j.header.limit buf ∧ TagIs j seq buf off t ∧
      t.flags &&& flagLastTag = 0 ∧ TagsAt j seq buf (nextTag j.header off t.flags) (t' :: ts)

/-- The records of a revoke block: `r_count` bytes, the header included. -/
structure RevokesAt (h : JournalHeader) (buf : List UInt8) (blocks : List Nat) : Prop where
  lower : revokeHeaderLen + recordBytes h * blocks.length ≤ getU32Be buf headerLen
  upper : getU32Be buf headerLen < revokeHeaderLen + recordBytes h * (blocks.length + 1)
  fits : getU32Be buf headerLen ≤ h.limit buf
  record : ∀ i b, blocks[i]? = some b →
    if h.has incompat64Bit then
      getU32Be buf (revokeHeaderLen + recordBytes h * i) = b / 2 ^ 32 ∧
        getU32Be buf (revokeHeaderLen + recordBytes h * i + 4) = b % 2 ^ 32
    else getU32Be buf (revokeHeaderLen + recordBytes h * i) = b

section Layout

variable (j : Journal) (log : Nat → List UInt8) (seq : Nat)

/-- The item starts at log block `i`; a descriptor's data blocks follow it. -/
def Item.At (i : Nat) : Item → Prop
  | .descriptor tags => HeaderIs (log i) descriptorBlock seq ∧ j.blockTailOk (log i) = true ∧
      TagsAt j seq (log i) headerLen tags ∧ ∀ k t, tags[k]? = some t → log (i + 1 + k) = t.logged
  | .revoke blocks => HeaderIs (log i) revokeBlock seq ∧ j.blockTailOk (log i) = true ∧
      RevokesAt j.header (log i) blocks

def ItemsAt : Nat → List Item → Prop
  | _, [] => True
  | i, it :: its => it.At j log seq i ∧ ItemsAt (i + it.size) its

/-- The transaction starts at log block `i` and ends with its commit block. -/
def TransactionAt (i : Nat) (tx : Transaction) : Prop :=
  ItemsAt j log seq i tx ∧ HeaderIs (log (i + (tx.map Item.size).sum)) commitBlock seq ∧
    j.commitOk (log (i + (tx.map Item.size).sum)) = true

end Layout

/-- The transactions from place `k` of the log on, laid out one after another from log
    block `i`. -/
def LogAt (j : Journal) (log : Nat → List UInt8) (seq : Nat) : Nat → Nat → List Transaction → Prop
  | _, _, [] => True
  | k, i, tx :: txs => TransactionAt j log (seqOf seq k) i tx ∧
      LogAt j log seq (k + 1) (i + tx.size) txs

/-- The log blocks reached from block `i` on by following transaction `seq`. -/
inductive Reach (j : Journal) (log : Nat → List UInt8) (seq i : Nat) : Nat → Prop
  | start : Reach j log seq i i
  | descriptor {k : Nat} : Reach j log seq i k → HeaderIs (log k) descriptorBlock seq →
      Reach j log seq i (k + 1 + (tags j.header (log k)).length)
  | revoke {k : Nat} : Reach j log seq i k → HeaderIs (log k) revokeBlock seq →
      Reach j log seq i (k + 1)

/-! ## The journal a log stands in -/

/-- Block `b` of the device. -/
def Filesystem.block (fs : Filesystem) (b : Nat) : List UInt8 :=
  window fs.dev.bytes (b * fs.blockSize) fs.blockSize

namespace Journal

/-- Blocks in the log. -/
def len (j : Journal) : Nat := j.last - j.header.first

/-- The journal block that holds log block `i`, counted from `s_start`. -/
def slot (j : Journal) (i : Nat) : Nat :=
  j.header.first + (j.header.start - j.header.first + i) % j.len

/-- The log as it stands on the device, from `s_start` round and round. -/
def log (j : Journal) (fs : Filesystem) (i : Nat) : List UInt8 :=
  fs.block (j.map.getD (j.slot i) 0)

end Journal

/-- Log blocks that `txs` take. -/
def logSize (txs : List Transaction) : Nat := (txs.map Transaction.size).sum

/-- The journal holds the log `txs`. -/
structure WellFormed (fs : Filesystem) (j : Journal) (txs : List Transaction) : Prop where
  empty : j.header.start = 0 → txs = []
  fits : logSize txs ≤ j.len
  half : txs.length ≤ 2 ^ 31
  laid : j.header.start ≠ 0 → LogAt j (j.log fs) j.header.sequence 0 0 txs
  homes : ∀ tx ∈ txs, ∀ t ∈ tx.tags, t.home < fs.blocksCount ∧ t.home ∉ j.map
  /-- What follows is no commit of the next transaction, and no descriptor of it claims
      more blocks than the log has. -/
  tail : j.header.start ≠ 0 → ∀ i,
    Reach j (j.log fs) (seqOf j.header.sequence txs.length) (logSize txs) i →
      (HeaderIs (j.log fs i) commitBlock (seqOf j.header.sequence txs.length) →
        j.commitOk (j.log fs i) = false) ∧
      (HeaderIs (j.log fs i) descriptorBlock (seqOf j.header.sequence txs.length) →
        (tags j.header (j.log fs i)).length ≤ j.len)

end MkfsExt4.Jbd2
