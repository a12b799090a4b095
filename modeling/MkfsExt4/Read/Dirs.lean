/-
  What the two readers list in a directory: `read_dir` of `src/read.rs` and of `src/fs.rs`.

  One walks the records of the directory's bytes as a whole, the other those of each block.
  `names_slots` says what the first sees of a row of blocks: everything up to the first block
  that is a hole or was never written, or up to the size (`seen`). `read_dir_agree_iff` says when
  that is everything.
-/
import MkfsExt4.Read.Files
import MkfsExt4.Structs.DirentCodec

namespace MkfsExt4

open Lib.Store Lib.Hoare Lib.Intervals

/-- What `read_dir` returns of an entry. -/
def DirEntry.pair (e : DirEntry) : List UInt8 × Nat := (e.name, e.inode)

/-- The names among the entries of a block. -/
def livePairs (entries : List DirEntry) : List (List UInt8 × Nat) :=
  (entries.filter DirEntry.isName).map DirEntry.pair

/-! ## Records of one block -/

namespace Dirent

/-- The entries whose records end within the first `limit` bytes. -/
def upTo : (limit : Nat) → List DirEntry → List DirEntry
  | _, [] => []
  | limit, e :: entries => if e.recLen ≤ limit then e :: upTo (limit - e.recLen) entries else []

/-- A limit past every record leaves them all. -/
theorem upTo_eq_self {limit : Nat} {entries : List DirEntry} (h : recordsLen entries ≤ limit) :
    upTo limit entries = entries := by
  induction entries generalizing limit with
  | nil => rfl
  | cons e entries ih =>
    rw [recordsLen, List.map_cons, List.sum_cons, ← recordsLen] at h
    rw [upTo, if_pos (by omega), ih (by omega)]

end Dirent

/-! ## The walk over bytes -/

namespace Ext4

open Dirent

theorem namesFrom_fuel {fuel fuel' : Nat} {data : List UInt8} (h : data.length ≤ fuel)
    (h' : data.length ≤ fuel') : namesFrom fuel data = namesFrom fuel' data := by
  induction fuel generalizing fuel' data with
  | zero =>
    cases fuel' with
    | zero => rfl
    | succ fuel' => rw [namesFrom, namesFrom, if_pos (Nat.lt_of_le_of_lt h (by decide))]
  | succ fuel ih =>
    cases fuel' with
    | zero => rw [namesFrom, namesFrom, if_pos (Nat.lt_of_le_of_lt h' (by decide))]
    | succ fuel' =>
      rw [namesFrom, namesFrom]
      dsimp only
      split
      · rfl
      · next hlen =>
        split
        · rfl
        · next hrec =>
          rw [entryHeaderLen] at hlen hrec
          have hdrop : (data.drop (getU16 data 4)).length = data.length - getU16 data 4 :=
            List.length_drop
          have hrest : namesFrom fuel (data.drop (getU16 data 4)) =
              namesFrom fuel' (data.drop (getU16 data 4)) := ih (by omega) (by omega)
          rw [hrest]

theorem names_short {data : List UInt8} (h : data.length < entryHeaderLen) : names data = [] := by
  unfold names
  cases hlen : data.length with
  | zero => rfl
  | succ n => rw [namesFrom, if_pos h]

/-- A record that cannot be stepped over ends the walk. -/
theorem names_stop {data : List UInt8}
    (h : getU16 data 4 < entryHeaderLen ∨ data.length < getU16 data 4) : names data = [] := by
  by_cases hshort : data.length < entryHeaderLen
  · exact names_short hshort
  · obtain ⟨n, hn⟩ : ∃ n, data.length = n + 1 := ⟨data.length - 1, by rw [entryHeaderLen] at hshort; omega⟩
    rw [names, hn, namesFrom, if_neg hshort]
    exact if_pos h

/-- One record of the walk. -/
theorem names_step {data : List UInt8} (hlo : entryHeaderLen ≤ getU16 data 4)
    (hhi : getU16 data 4 ≤ data.length) :
    names data = (if getU32 data 0 ≠ 0 ∧ 0 < getU8 data 6 ∧
        entryHeaderLen + getU8 data 6 ≤ data.length then
        [(slice data entryHeaderLen (getU8 data 6), getU32 data 0)] else []) ++
      names (data.drop (getU16 data 4)) := by
  obtain ⟨n, hn⟩ : ∃ n, data.length = n + 1 :=
    ⟨data.length - 1, by rw [entryHeaderLen] at hlo; omega⟩
  have hrest : namesFrom n (data.drop (getU16 data 4)) = names (data.drop (getU16 data 4)) := by
    rw [entryHeaderLen] at hlo
    exact namesFrom_fuel (by rw [List.length_drop]; omega) (Nat.le_refl _)
  conv_lhs => rw [names, hn, namesFrom, if_neg (by omega)]
  dsimp only
  rw [if_neg (by omega), hrest]

/-- The walk takes an entry that decodes as the entry's record says. -/
theorem names_entry {data block : List UInt8} {e : DirEntry} (hdec : DirEntry.decode block = .ok e)
    (hsame : data.take e.recLen = block.take e.recLen) (hlen : e.recLen ≤ data.length) :
    names data = livePairs [e] ++ names (data.drop e.recLen) := by
  obtain ⟨hlo, hhi, hrec, hino, hname, hfit⟩ := decode_ok hdec
  rw [entryHeaderLen] at hlo hfit
  have h32 : getU32 data 0 = e.inode := by
    rw [hino, getU32, getU32, slice_congr_take hsame (by omega)]
  have h16 : getU16 data 4 = e.recLen := by
    rw [hrec, getU16, getU16, slice_congr_take hsame (by omega)]
  have h8 : getU8 data 6 = getU8 block 6 := by
    have hbyte := slice_congr_take hsame (show 6 + 1 ≤ _ by omega)
    have hget := congrArg (fun bs => bs.getD 0 0) hbyte
    simp only [getD_slice _ _ _ _ _ Nat.one_pos, Nat.add_zero] at hget
    rw [getU8, getU8, hget]
  have hbytes : slice data entryHeaderLen (getU8 block 6) = e.name := by
    rw [hname]
    exact slice_congr_take hsame (by rw [entryHeaderLen]; omega)
  have hnamelen : e.name.length = getU8 block 6 := by
    rw [hname, length_slice (by rw [entryHeaderLen]; omega)]
  rw [names_step (by rw [h16, entryHeaderLen]; exact hlo) (by rw [h16]; exact hlen), h32, h16, h8,
    hbytes]
  congr 1
  have hlive : e.isName ↔ e.inode ≠ 0 ∧ 0 < getU8 block 6 := by
    rw [← hnamelen, List.length_pos_iff]
    simp only [DirEntry.isName, DirEntry.isTail, Bool.and_eq_true, bne_iff_ne, Bool.not_eq_true',
      List.isEmpty_eq_false_iff]
    constructor
    · exact fun h => ⟨h.1.1, h.2⟩
    · exact fun h => ⟨⟨h.1, by simp [h.1]⟩, h.2⟩
  by_cases hn : e.isName
  · rw [if_pos ⟨(hlive.mp hn).1, (hlive.mp hn).2, by rw [entryHeaderLen]; omega⟩, livePairs,
      List.filter_cons_of_pos hn]
    rfl
  · rw [if_neg fun h => hn (hlive.mpr ⟨h.1, h.2.1⟩), livePairs, List.filter_cons_of_neg hn]
    rfl

theorem livePairs_cons (e : DirEntry) (entries : List DirEntry) :
    livePairs (e :: entries) = livePairs [e] ++ livePairs entries := by
  rw [livePairs, livePairs, livePairs, ← List.map_append, ← List.filter_append]
  rfl

/-- A block whose records fill it, and what follows it. -/
theorem names_append {block rest : List UInt8} {entries : List DirEntry}
    (h : parseBlock block = .ok entries) (hfull : recordsLen entries = block.length) :
    names (block ++ rest) = livePairs entries ++ names rest := by
  induction entries generalizing block with
  | nil =>
    obtain rfl := List.eq_nil_of_length_eq_zero hfull.symm
    rfl
  | cons e entries ih =>
    rcases parseBlock_ok h with ⟨-, hnil⟩ | ⟨e', tail, heq, -, hdec, htail⟩
    · cases hnil
    · obtain ⟨rfl, rfl⟩ := List.cons.inj heq
      have hle := (decode_ok hdec).2.1
      rw [recordsLen, List.map_cons, List.sum_cons, ← recordsLen] at hfull
      rw [names_entry hdec (List.take_append_of_le_length hle)
        (by rw [List.length_append]; omega), List.drop_append_of_le_length hle,
        ih htail (by rw [List.length_drop]; omega), livePairs_cons e entries, List.append_assoc]

/-- A block cut off somewhere. -/
theorem names_take {block : List UInt8} {entries : List DirEntry}
    (h : parseBlock block = .ok entries) (limit : Nat) :
    names (block.take limit) = livePairs (upTo limit entries) := by
  induction entries generalizing block limit with
  | nil =>
    rcases parseBlock_ok h with ⟨hshort, -⟩ | ⟨_, _, hcons, -⟩
    · exact names_short (by rw [List.length_take]; omega)
    · cases hcons
  | cons e entries ih =>
    rcases parseBlock_ok h with ⟨-, hnil⟩ | ⟨e', tail, heq, hlong, hdec, htail⟩
    · cases hnil
    · obtain ⟨rfl, rfl⟩ := List.cons.inj heq
      obtain ⟨hlo, hle, hrec, -⟩ := decode_ok hdec
      rw [upTo]
      by_cases hin : e.recLen ≤ limit
      · rw [if_pos hin, names_entry hdec (by rw [List.take_take, Nat.min_eq_left hin])
          (by rw [List.length_take]; omega), List.drop_take, ih htail,
          livePairs_cons e (upTo _ _)]
      · rw [if_neg hin]
        by_cases hshort : limit < entryHeaderLen
        · exact names_short (by rw [List.length_take]; omega)
        · -- The record is cut off: the walk sees its length and stops.
          have hlen : getU16 (block.take limit) 4 = e.recLen := by
            rw [hrec, getU16, getU16]
            congr 1
            exact slice_congr_take (m := limit) (by rw [List.take_take, Nat.min_self])
              (by rw [entryHeaderLen] at hshort; omega)
          exact names_stop (Or.inr (by rw [hlen, List.length_take]; omega))

/-- Zeroes are no records. -/
theorem names_zeroes {data : List UInt8} (h : entryHeaderLen ≤ data.length →
    data.take entryHeaderLen = List.replicate entryHeaderLen 0) : names data = [] := by
  by_cases hshort : data.length < entryHeaderLen
  · exact names_short hshort
  · have hsame : data.take entryHeaderLen =
        (List.replicate entryHeaderLen 0).take entryHeaderLen := by
      rw [h (by omega), List.take_of_length_le (Nat.le_of_eq List.length_replicate)]
    refine names_stop (Or.inl ?_)
    rw [getU16, slice_congr_take hsame (by decide)]
    decide

end Ext4

/-! ## A row of blocks -/

/-- One block of a directory: the bytes a reader that honours holes and unwritten extents finds
in it, the entries the block's bytes on the device parse to, and whether the two are of the same
bytes. -/
structure Slot where
  bytes : List UInt8
  entries : List DirEntry
  written : Bool

namespace Slot

open Dirent

/-- A slot of blocks of `size` bytes. -/
structure Wf (size : Nat) (s : Slot) : Prop where
  length : s.bytes.length = size
  parse : s.written → parseBlock s.bytes = .ok s.entries
  zero : s.written = false → s.bytes = List.replicate size 0

/-- The entries that lie before every hole, every unwritten block and the end of the directory,
`limit` bytes on. -/
def seen (size : Nat) : (limit : Nat) → List Slot → List DirEntry
  | _, [] => []
  | limit, s :: slots =>
    if s.written then upTo limit s.entries ++ seen size (limit - size) slots else []

/-- The records of every written block that is not the last fill it. -/
def Filled (size : Nat) (slots : List Slot) : Prop :=
  ∀ k s, slots[k]? = some s → k + 1 < slots.length → s.written → recordsLen s.entries = size

/-- The walk over the bytes of a row of blocks, cut to the directory's size. -/
theorem names_slots {size limit : Nat} {slots : List Slot} (hsize : entryHeaderLen ≤ size)
    (hwf : ∀ s ∈ slots, s.Wf size) (hfill : Filled size slots)
    (hlo : (slots.length - 1) * size < limit ∨ slots = []) :
    Ext4.names ((slots.map Slot.bytes).flatten.take limit) = livePairs (seen size limit slots) := by
  induction slots generalizing limit with
  | nil => exact Ext4.names_short (by rw [List.map_nil, List.flatten_nil, List.take_nil]; decide)
  | cons s slots ih =>
    obtain ⟨hlen, hparse, hzero⟩ := hwf s List.mem_cons_self
    rw [List.map_cons, List.flatten_cons, seen]
    cases hw : s.written with
    | false =>
      rw [if_neg Bool.false_ne_true]
      refine Ext4.names_zeroes fun hlong => ?_
      rw [List.length_take] at hlong
      rw [List.take_take, Nat.min_eq_left (by omega), hzero hw,
        List.take_append_of_le_length (by rw [List.length_replicate]; exact hsize),
        List.take_replicate, Nat.min_eq_left hsize]
    | true =>
      have hblock := hparse hw
      rw [if_pos rfl]
      cases slots with
      | nil =>
        rw [List.map_nil, List.flatten_nil, List.append_nil, Ext4.names_take hblock, seen,
          List.append_nil]
      | cons s' slots =>
        have hpast : (slots.length + 1) * size < limit := by simpa using hlo
        rw [Nat.add_mul, Nat.one_mul] at hpast
        have hfull : recordsLen s.entries = size :=
          hfill 0 s rfl (by rw [List.length_cons, List.length_cons]; omega) hw
        rw [List.take_append, List.take_of_length_le (by omega), hlen,
          Ext4.names_append hblock (by rw [hfull, hlen]), upTo_eq_self (by omega), livePairs,
          livePairs, List.filter_append, List.map_append]
        refine congrArg _ (ih (fun t ht => hwf t (List.mem_cons_of_mem _ ht)) ?_ (Or.inl ?_))
        · intro k t hk hlast hwt
          exact hfill (k + 1) t hk (by rw [List.length_cons]; omega) hwt
        · rw [List.length_cons, Nat.add_sub_cancel]
          omega

/-- Everything the entries of the blocks name. -/
def allPairs (slots : List Slot) : List (List UInt8 × Nat) :=
  (slots.map fun s => livePairs s.entries).flatten

/-- Every name lies in a block that is written, as are all before it, and its record ends within
the first `limit` bytes. -/
def Reached (size limit : Nat) (slots : List Slot) : Prop :=
  ∀ k s, slots[k]? = some s → ∀ i e, s.entries[i]? = some e → e.isName →
    (∀ j ≤ k, ∀ t, slots[j]? = some t → t.written) ∧
      k * size + recordsLen (s.entries.take (i + 1)) ≤ limit

theorem livePairs_eq_nil_iff {entries : List DirEntry} :
    livePairs entries = [] ↔ ∀ e ∈ entries, ¬ e.isName := by
  rw [livePairs, List.map_eq_nil_iff, List.filter_eq_nil_iff]

theorem allPairs_eq_nil_iff {slots : List Slot} :
    allPairs slots = [] ↔ ∀ s ∈ slots, ∀ e ∈ s.entries, ¬ e.isName := by
  rw [allPairs, List.flatten_eq_nil_iff, List.forall_mem_map]
  exact forall₂_congr fun _ _ => livePairs_eq_nil_iff

/-- Cutting a block off loses none of its names exactly when their records end before the cut. -/
theorem livePairs_upTo_iff {entries : List DirEntry} {limit : Nat} :
    livePairs (upTo limit entries) = livePairs entries ↔
      ∀ i e, entries[i]? = some e → e.isName →
        recordsLen (entries.take (i + 1)) ≤ limit := by
  induction entries generalizing limit with
  | nil => exact ⟨fun _ i e h => by simp at h, fun _ => rfl⟩
  | cons e entries ih =>
    rw [upTo]
    by_cases hin : e.recLen ≤ limit
    · rw [if_pos hin, Ext4.livePairs_cons e (upTo _ _), Ext4.livePairs_cons e entries,
        List.append_cancel_left_eq, ih]
      constructor
      · intro h i d hi hd
        cases i with
        | zero =>
          rw [recordsLen]
          simpa using hin
        | succ i =>
          have := h i d hi hd
          rw [List.take_succ_cons, recordsLen, List.map_cons, List.sum_cons, ← recordsLen]
          omega
      · intro h i d hi hd
        have := h (i + 1) d hi hd
        rw [List.take_succ_cons, recordsLen, List.map_cons, List.sum_cons, ← recordsLen] at this
        omega
    · rw [if_neg hin]
      have hnil : livePairs ([] : List DirEntry) = [] := rfl
      rw [hnil, eq_comm, livePairs_eq_nil_iff]
      constructor
      · intro h i d hi hd
        exact absurd hd (h d (List.mem_of_getElem? hi))
      · intro h d hmem hd
        obtain ⟨i, hi⟩ := List.mem_iff_getElem?.mp hmem
        have := h i d hi hd
        rw [List.take_succ_cons, recordsLen, List.map_cons, List.sum_cons] at this
        omega

/-- Reaching the names of a written block and of the blocks after it. -/
theorem reached_cons {size limit : Nat} {s : Slot} {slots : List Slot} (hw : s.written)
    (hlo : slots = [] ∨ size ≤ limit) :
    Reached size limit (s :: slots) ↔
      (∀ i e, s.entries[i]? = some e → e.isName →
        recordsLen (s.entries.take (i + 1)) ≤ limit) ∧ Reached size (limit - size) slots := by
  constructor
  · refine fun h => ⟨fun i e hi he => ?_, fun k t hk i e hi he => ?_⟩
    · have := (h 0 s rfl i e hi he).2
      omega
    · obtain ⟨hall, hend⟩ := h (k + 1) t hk i e hi he
      refine ⟨fun j hj u hu => hall (j + 1) (by omega) u hu, ?_⟩
      rw [Nat.add_mul, Nat.one_mul] at hend
      omega
  · rintro ⟨hfirst, hrest⟩ k t hk i e hi he
    cases k with
    | zero =>
      obtain rfl := Option.some.inj hk
      refine ⟨fun j hj u hu => ?_, ?_⟩
      · obtain rfl := Nat.le_zero.mp hj
        exact Option.some.inj hu ▸ hw
      · have := hfirst i e hi he
        omega
    | succ k =>
      obtain ⟨hall, hend⟩ := hrest k t hk i e hi he
      refine ⟨fun j hj u hu => ?_, ?_⟩
      · cases j with
        | zero => exact Option.some.inj hu ▸ hw
        | succ j => exact hall j (by omega) u hu
      · have hsize : size ≤ limit := hlo.resolve_left fun h => by
          rw [h] at hk
          simp at hk
        rw [Nat.add_mul, Nat.one_mul]
        omega

/-- What is seen is everything exactly when every name is reached. -/
theorem seen_all_iff {size limit : Nat} {slots : List Slot}
    (hroom : ∀ s ∈ slots, recordsLen s.entries ≤ size)
    (hlo : (slots.length - 1) * size < limit ∨ slots = []) :
    livePairs (seen size limit slots) = allPairs slots ↔ Reached size limit slots := by
  induction slots generalizing limit with
  | nil => exact ⟨fun _ k s h => by simp at h, fun _ => rfl⟩
  | cons s slots ih =>
    rw [seen]
    cases hw : s.written with
    | false =>
      have hnil : livePairs ([] : List DirEntry) = [] := rfl
      rw [if_neg Bool.false_ne_true, hnil, eq_comm, allPairs_eq_nil_iff]
      constructor
      · intro h k t hk i e hi he
        exact absurd he (h t (List.mem_of_getElem? hk) e (List.mem_of_getElem? hi))
      · intro h t ht e he hname
        obtain ⟨k, hk⟩ := List.mem_iff_getElem?.mp ht
        obtain ⟨i, hi⟩ := List.mem_iff_getElem?.mp he
        have := (h k t hk i e hi hname).1 0 (Nat.zero_le _) s rfl
        rw [hw] at this
        cases this
    | true =>
      have hsum : livePairs (upTo limit s.entries ++ seen size (limit - size) slots) =
          livePairs (upTo limit s.entries) ++ livePairs (seen size (limit - size) slots) := by
        rw [livePairs, List.filter_append, List.map_append]
        rfl
      have hall : allPairs (s :: slots) = livePairs s.entries ++ allPairs slots := by
        rw [allPairs, List.map_cons, List.flatten_cons, ← allPairs]
      rw [if_pos rfl, hsum, hall]
      cases slots with
      | nil =>
        rw [reached_cons hw (Or.inl rfl), ← livePairs_upTo_iff]
        have hend : livePairs (seen size (limit - size) []) = allPairs [] := rfl
        rw [hend, List.append_cancel_right_eq]
        exact ⟨fun h => ⟨h, fun k t hk => by simp at hk⟩, And.left⟩
      | cons s' slots =>
        have hpast : (slots.length + 1) * size < limit := by simpa using hlo
        rw [Nat.add_mul, Nat.one_mul] at hpast
        have hfit := hroom s List.mem_cons_self
        have hrest := @ih (limit - size) (fun t ht => hroom t (List.mem_cons_of_mem _ ht))
          (Or.inl (by rw [List.length_cons, Nat.add_sub_cancel]; omega))
        have hwhole : upTo limit s.entries = s.entries := upTo_eq_self (by omega)
        rw [reached_cons hw (Or.inr (by omega)), ← livePairs_upTo_iff, hwhole,
          List.append_cancel_left_eq, hrest]
        exact ⟨fun h => ⟨rfl, h⟩, And.right⟩

end Slot

/-! ## A directory of a well-formed tree -/

namespace Filesystem

open Dirent

/-- How many blocks a directory of `size` bytes has. -/
def dirBlocks (fs : Filesystem) (size : Nat) : Nat := (size + fs.blockSize - 1) / fs.blockSize

/-- The logical block `k` of a directory. -/
def slotAt (fs : Filesystem) (exts : List Extent) (k : Nat) : Slot :=
  match exts.find? (covers Extent.block Extent.effectiveLen k) with
  | none => { bytes := List.replicate fs.blockSize 0, entries := [], written := false }
  | some ext =>
    let block := fs.bytesOf (physicalOf k ext)
    { bytes := if ext.isUninit then List.replicate fs.blockSize 0 else block
      entries := (parseBlock block).toOption.getD []
      written := !ext.isUninit }

/-- The blocks of a directory. -/
def slots (fs : Filesystem) (size : Nat) (exts : List Extent) : List Slot :=
  (List.range (fs.dirBlocks size)).map (fs.slotAt exts)

/-- Every mapped block of a directory parses. -/
def Parses (fs : Filesystem) (size : Nat) (exts : List Extent) : Prop :=
  ∀ k < fs.dirBlocks size, ∀ ext,
    exts.find? (covers Extent.block Extent.effectiveLen k) = some ext →
      ∃ entries, parseBlock (fs.bytesOf (physicalOf k ext)) = .ok entries

variable {fs : Filesystem} {size : Nat} {exts : List Extent}

theorem length_slotAt (fs : Filesystem) (exts : List Extent) (k : Nat) :
    (fs.slotAt exts k).bytes.length = fs.blockSize := by
  unfold slotAt
  split
  · exact List.length_replicate
  · dsimp only
    split
    · exact List.length_replicate
    · exact length_window _ _ _

theorem slotAt_wf (hparse : fs.Parses size exts) {k : Nat} (hk : k < fs.dirBlocks size) :
    (fs.slotAt exts k).Wf fs.blockSize := by
  refine ⟨fs.length_slotAt exts k, ?_, ?_⟩
  · unfold slotAt
    split
    · exact fun h => nomatch h
    · next ext hext =>
      obtain ⟨entries, hok⟩ := hparse k hk ext hext
      intro hw
      have hinit : ext.isUninit = false := by simpa using hw
      dsimp only
      rw [hinit, if_neg Bool.false_ne_true, hok]
      rfl
  · unfold slotAt
    split
    · exact fun _ => rfl
    · next ext hext =>
      intro hw
      have hinit : ext.isUninit = true := by simpa using hw
      exact if_pos hinit

theorem slots_wf (hparse : fs.Parses size exts) : ∀ s ∈ fs.slots size exts, s.Wf fs.blockSize := by
  intro s hs
  obtain ⟨k, hk, rfl⟩ := List.mem_map.mp hs
  exact slotAt_wf hparse (List.mem_range.mp hk)

theorem slots_room (hparse : fs.Parses size exts) :
    ∀ s ∈ fs.slots size exts, recordsLen s.entries ≤ fs.blockSize := by
  intro s hs
  obtain ⟨k, hk, rfl⟩ := List.mem_map.mp hs
  unfold slotAt
  split
  · exact Nat.zero_le _
  · next ext hext =>
    obtain ⟨entries, hok⟩ := hparse k (List.mem_range.mp hk) ext hext
    have hle := recordsLen_le hok
    rw [bytesOf, length_window] at hle
    dsimp only
    rw [hok]
    exact hle

/-- What the synchronous reader copies out of a directory is its blocks, cut to its size. -/
theorem contents_slots (hbs : fs.blockSize ≠ 0) :
    fs.contents size exts = ((fs.slots size exts).map Slot.bytes).flatten.take size := by
  have hpos := Nat.pos_of_ne_zero hbs
  rw [slots, List.map_map, dirBlocks]
  refine (Eq.trans (take_flatten_blocks 0 hpos (fs.length_slotAt exts) size) ?_).symm
  rw [contents]
  refine List.map_congr_left fun p _ => ?_
  have hlt : p % fs.blockSize < fs.blockSize := Nat.mod_lt _ hpos
  have hzero : (List.replicate fs.blockSize (0 : UInt8)).getD (p % fs.blockSize) 0 = 0 := by
    rw [List.getD_eq_getElem?_getD, List.getElem?_replicate_of_lt hlt, Option.getD_some]
  rw [slotAt, extentAt]
  cases exts.find? (covers Extent.block Extent.effectiveLen (p / fs.blockSize)) with
  | none => exact hzero
  | some ext =>
    dsimp only
    cases ext.isUninit with
    | true => exact hzero
    | false => exact getD_window _ _ _ _ _ hlt

/-- `read_dir` on a well-formed tree whose blocks parse: the names of every mapped block. -/
theorem readDir_eq (hbs : fs.blockSize ≠ 0) {inode : Inode} (hdir : inode.isDir = true)
    (hext : inode.usesExtents = true) (hmap : inode.hasBlockMap = true) {depth hi : Nat}
    (h : fs.Tree depth 0 hi inode.block exts) (hparse : fs.Parses inode.size exts) :
    ∃ entries, fs.readDir inode = .ok entries ∧
      entries.map DirEntry.pair = Slot.allPairs (fs.slots inode.size exts) := by
  refine ⟨((List.range (fs.dirBlocks inode.size)).map fun k =>
    (fs.slotAt exts k).entries.filter DirEntry.isName).flatten, ?_, ?_⟩
  · unfold readDir
    rw [hdir]
    refine panicIf_bind_ok_iff.mpr ⟨hbs, ?_⟩
    refine bind_ok_iff.mpr ⟨_, mapM_ok
      (g := fun k => (fs.slotAt exts k).entries.filter DirEntry.isName) fun k hk => ?_, rfl⟩
    have hk := List.mem_range.mp hk
    have hresolve : fs.resolveBlock inode k =
        .ok ((exts.find? (covers Extent.block Extent.effectiveLen k)).map (physicalOf k)) := by
      rw [resolveBlock, hmap, hext]
      exact h.sortedTree.resolveExtent_eq k
    rw [hresolve, slotAt]
    cases hfind : exts.find? (covers Extent.block Extent.effectiveLen k) with
    | none => rfl
    | some ext =>
      obtain ⟨entries, hok⟩ := hparse k hk ext hfind
      dsimp only
      rw [hok]
      refine bind_ok_iff.mpr ⟨some (physicalOf k ext), rfl, ?_⟩
      refine bind_ok_iff.mpr ⟨_, readBlock_onDisk (physicalOf_onDisk h hfind), ?_⟩
      exact bind_ok_iff.mpr ⟨entries, returned_ok_iff.mpr hok, rfl⟩
  · rw [Slot.allPairs, slots, List.map_flatten, List.map_map, List.map_map]
    rfl

theorem hasBlockMap_of_isDir {inode : Inode} (h : inode.isDir = true) :
    inode.hasBlockMap = true := by
  have htype : inode.fileType = Mode.ifdir := beq_iff_eq.mp h
  rw [Inode.hasBlockMap, htype]
  rfl

theorem slots_shape (fs : Filesystem) (size : Nat) (exts : List Extent) (hbs : fs.blockSize ≠ 0) :
    ((fs.slots size exts).length - 1) * fs.blockSize < size ∨ fs.slots size exts = [] := by
  rw [slots, List.length_map, List.length_range, dirBlocks]
  by_cases hsize : size = 0
  · right
    rw [hsize, Nat.div_eq_of_lt (by omega), List.range_zero, List.map_nil]
  · left
    have hdiv := Nat.div_mul_le_self (size + fs.blockSize - 1) fs.blockSize
    rw [Nat.sub_mul, Nat.one_mul]
    omega

end Filesystem

/-! ## The two against each other -/

open Filesystem Dirent

section Pair

variable {dev : Device} {e : Ext4} {fs : Filesystem} (he : Ext4.openOn dev = .ok e)
  (hf : Filesystem.openOn dev = .ok fs) {inode : Inode} (hdir : inode.isDir = true)
  (hext : inode.usesExtents = true) {depth : Nat} {exts : List Extent}
  (h : fs.Tree depth 0 (2 ^ 32) inode.block exts) (hparse : fs.Parses inode.size exts)
  (hfill : Slot.Filled fs.blockSize (fs.slots inode.size exts))

include he hf hext h hparse hfill

/-- What `Ext4` lists, within its five levels. -/
theorem readDir_seen (hdepth : depth ≤ 5) :
    e.readDir dev inode =
      .ok (livePairs (Slot.seen fs.blockSize inode.size (fs.slots inode.size exts))) := by
  have hopened := openOn_opened hf
  obtain ⟨-, hbs⟩ := opened_pair (Ext4.openOn_opened he) hopened
  have hpos := hopened.blockSize_ne_zero
  have hsmall : fs.blockSize < 2 ^ 32 := by
    obtain ⟨hlog, hpow, -⟩ := hopened.blockSize_eq
    rw [hpow]
    exact Nat.pow_lt_pow_right (by decide) hlog
  have hdata := Ext4.readInodeData_eq hbs hopened.device hpos hsmall hext h hdepth
  refine bind_ok_iff.mpr ⟨_, hdata, congrArg Except.ok ?_⟩
  rw [contents_slots hpos]
  refine Slot.names_slots (Nat.le_of_lt hopened.eight_lt_blockSize) (slots_wf hparse) hfill
    (slots_shape fs inode.size exts hpos)

include hdir

/-- For every image both readers open and every extent-mapped directory with a well-formed tree
    whose mapped blocks parse, with records that fill every block before the last, the two list
    the same names in the same order exactly when the tree has at most five levels and no name
    lies in or behind a hole or an unwritten block, or past the size. -/
theorem read_dir_agree_iff :
    (∃ entries, fs.readDir inode = .ok entries ∧
        e.readDir dev inode = .ok (entries.map DirEntry.pair)) ↔
      depth ≤ 5 ∧ Slot.Reached fs.blockSize inode.size (fs.slots inode.size exts) := by
  have hopened := openOn_opened hf
  have hpos := hopened.blockSize_ne_zero
  obtain ⟨-, hbs⟩ := opened_pair (Ext4.openOn_opened he) hopened
  obtain ⟨entries, hread, hpairs⟩ :=
    readDir_eq hpos hdir hext (hasBlockMap_of_isDir hdir) h hparse
  have hall := Slot.seen_all_iff (slots_room hparse) (slots_shape fs inode.size exts hpos)
  constructor
  · rintro ⟨entries', hread', hdata⟩
    obtain rfl := Except.ok.inj (hread.symm.trans hread')
    have hdepth : depth ≤ 5 := by
      by_contra hdeep
      obtain ⟨err, herr⟩ := Ext4.readInodeData_deep hbs hopened.device hext h (by omega)
      rw [Ext4.readDir, herr] at hdata
      cases hdata
    refine ⟨hdepth, hall.mp ?_⟩
    rw [readDir_seen he hf hext h hparse hfill hdepth] at hdata
    exact (Except.ok.inj hdata).trans hpairs
  · rintro ⟨hdepth, hreach⟩
    refine ⟨entries, hread, ?_⟩
    rw [readDir_seen he hf hext h hparse hfill hdepth, hall.mpr hreach, hpairs]

end Pair

/-! ### Two blocks, with a hole between them and without -/

/-- 16 blocks: a directory's first block in block 5, with ".", "..", its other in block 6, with
    one name more. -/
def dirImage : Device := .ofChunks 16384
  [(1024, [16, 0, 0, 0, 16]), (1024 + 0x14, [1]), (1024 + 0x21, [0x20]), (1024 + 0x28, [16]),
    (1024 + 0x38, [0x53, 0xef]), (2048, [3, 0, 0, 0, 4, 0, 0, 0, 7]),
    (5 * 1024, [2, 0, 0, 0, 12, 0, 1, 2, 0x2e, 0, 0, 0, 2, 0, 0, 0, 0xf4, 3, 2, 2, 0x2e, 0x2e]),
    (6 * 1024, [12, 0, 0, 0, 0, 4, 1, 1, 0x61])]

/-- The other block is logical block `second`: 1, or 2 behind a hole. -/
def dirMap (second : UInt8) : List UInt8 :=
  [0x0a, 0xf3, 2, 0, 4, 0, 0, 0, 0, 0, 0, 0] ++ [0, 0, 0, 0, 1, 0, 0, 0, 5, 0, 0, 0] ++
    [second, 0, 0, 0, 1, 0, 0, 0, 6, 0, 0, 0] ++ List.replicate 24 0

def dirInode (second : UInt8) : Inode where
  mode := 0x41ed
  flags := IFlags.extents
  size := (second.toNat + 1) * 1024
  block := dirMap second

def dirExtents (second : UInt8) : List Extent :=
  [{ block := 0, len := 1, start := 5 }, { block := second.toNat, len := 1, start := 6 }]

/-- A filesystem over the image, for its blocks alone. -/
def dirFs : Filesystem where
  device := dirImage
  superblock := { Superblock.default with logBlockSize := 0, blocksCount := 16 }
  groupDescs := []
  csumScheme := .none
  csumSeed := 0

theorem dirFs_blockSize : dirFs.blockSize = 1024 := by decide

/-- The slots of the two directories: their blocks parse, and the records fill them. -/
theorem dir_answers : geometryOf dirImage = some (16, 1024) ∧
    (∀ b ∈ [5, 6], ((parseBlock (dirFs.bytesOf b)).toOption).isSome) ∧
    (∀ second ∈ [1, 2], ∀ k < 2, (dirFs.slotAt (dirExtents second) k).written →
      recordsLen (dirFs.slotAt (dirExtents second) k).entries = 1024) ∧
    (∀ k < 2, (dirFs.slotAt (dirExtents 1) k).written = true ∧
      (dirFs.slotAt (dirExtents 1) k).entries.length ≤ 2 ∧
      ∀ i < 2, recordsLen ((dirFs.slotAt (dirExtents 1) k).entries.take (i + 1)) ≤ 1024) ∧
    Slot.allPairs (dirFs.slots 3072 (dirExtents 2)) ≠
      livePairs (Slot.seen 1024 3072 (dirFs.slots 3072 (dirExtents 2))) := by
  decide +kernel

section Image

variable {fs : Filesystem} {second : UInt8} (hdev : fs.device = dirImage)
  (hsize : fs.blockSize = 1024)

include hdev hsize

theorem dir_bytesOf (block : Nat) : fs.bytesOf block = dirFs.bytesOf block := by
  have hdirDev : dirFs.device = dirImage := rfl
  rw [bytesOf, bytesOf, hdev, hsize, hdirDev, dirFs_blockSize]

theorem dir_slotAt (k : Nat) :
    fs.slotAt (dirExtents second) k = dirFs.slotAt (dirExtents second) k := by
  unfold slotAt
  simp only [dir_bytesOf hdev hsize, hsize, dirFs_blockSize]

theorem dir_slots (size : Nat) :
    fs.slots size (dirExtents second) = dirFs.slots size (dirExtents second) := by
  rw [slots, slots, dirBlocks, dirBlocks, hsize, dirFs_blockSize]
  exact List.map_congr_left fun k _ => dir_slotAt hdev hsize k

theorem dir_tree (hcount : fs.superblock.blocksCount = 16) (hsecond : second = 1 ∨ second = 2) :
    fs.Tree 0 0 (2 ^ 32) (dirMap second) (dirExtents second) := by
  have hsmall : ∀ ext ∈ dirExtents second, ext.start + ext.effectiveLen ≤ 16 := by
    rcases hsecond with rfl | rfl <;> decide
  have hdisk : ∀ ext ∈ dirExtents second, ∀ k < ext.effectiveLen, fs.OnDisk (ext.start + k) := by
    intro ext hext k hk
    have := hsmall ext hext
    refine ⟨by omega, by rw [hsize]; omega, ?_⟩
    rw [hsize, hdev]
    show (ext.start + k) * 1024 + 1024 ≤ 16384
    omega
  refine ⟨{ entries := 2, max := 4, depth := 0, generation := 0 }, ?_, ?_, ?_, hdisk⟩
  all_goals rcases hsecond with rfl | rfl
  · exact ⟨rfl, rfl, by decide⟩
  · exact ⟨rfl, rfl, by decide⟩
  all_goals decide

theorem dir_parses (hsecond : second = 1 ∨ second = 2) (size : Nat) :
    fs.Parses size (dirExtents second) := by
  intro k _ ext hext
  have hcov := List.find?_some hext
  rw [covers, decide_eq_true_iff] at hcov
  have hone : ∀ ext ∈ dirExtents second,
      ext.effectiveLen = 1 ∧ (ext.start = 5 ∨ ext.start = 6) := by
    rcases hsecond with rfl | rfl <;> decide
  obtain ⟨hlen, hstart⟩ := hone ext (List.mem_of_find?_eq_some hext)
  have hblock : physicalOf k ext ∈ [5, 6] := by
    rw [physicalOf, List.mem_cons, List.mem_singleton]
    omega
  have hsome := dir_answers.2.1 _ hblock
  rw [dir_bytesOf hdev hsize]
  cases hp : parseBlock (dirFs.bytesOf (physicalOf k ext)) with
  | ok entries => exact ⟨entries, rfl⟩
  | error err =>
    rw [hp] at hsome
    cases hsome

theorem dir_filled (hsecond : second ∈ [1, 2]) {size : Nat} (hblocks : dirFs.dirBlocks size ≤ 3) :
    Slot.Filled fs.blockSize (fs.slots size (dirExtents second)) := by
  rw [dir_slots hdev hsize, hsize]
  intro k s hk hlast hw
  rw [slots, List.length_map, List.length_range] at hlast
  rw [slots, List.getElem?_map, List.getElem?_range (by omega)] at hk
  obtain rfl := Option.some.inj hk
  exact dir_answers.2.2.1 second hsecond k (by omega) hw

end Image

/-- Without the hole the directory of two blocks reads the same. -/
theorem read_dir_agree_whole : ∃ e fs, Ext4.openOn dirImage = .ok e ∧
    openOn dirImage = .ok fs ∧ ∃ entries, fs.readDir (dirInode 1) = .ok entries ∧
      e.readDir dirImage (dirInode 1) = .ok (entries.map DirEntry.pair) := by
  obtain ⟨e, fs, he, hf, hcount, hsize⟩ := geometryOf_some dir_answers.1
  have hdev := (openOn_opened hf).device
  refine ⟨e, fs, he, hf, (read_dir_agree_iff he hf (by decide) (by decide)
    (dir_tree hdev hsize hcount (Or.inl rfl)) (dir_parses hdev hsize (Or.inl rfl) 2048)
    (dir_filled hdev hsize (by decide) (by decide))).mpr ⟨by decide, ?_⟩⟩
  have hslots : dirFs.slots 2048 (dirExtents 1) =
      [dirFs.slotAt (dirExtents 1) 0, dirFs.slotAt (dirExtents 1) 1] := rfl
  have hat : ∀ {k s}, (dirFs.slots 2048 (dirExtents 1))[k]? = some s →
      k < 2 ∧ s = dirFs.slotAt (dirExtents 1) k := by
    intro k s hk
    rw [hslots] at hk
    obtain ⟨hlt, rfl⟩ := List.getElem?_eq_some_iff.mp hk
    have hlt : k < 2 := hlt
    refine ⟨hlt, ?_⟩
    obtain rfl | rfl : k = 0 ∨ k = 1 := by omega
    all_goals rfl
  rw [show (dirInode 1).size = 2048 from rfl, dir_slots hdev hsize, hsize]
  intro k s hk i entry hi _
  obtain ⟨hlt, rfl⟩ := hat hk
  obtain ⟨-, hlen, hends⟩ := dir_answers.2.2.2.1 k hlt
  obtain ⟨hi, -⟩ := List.getElem?_eq_some_iff.mp hi
  refine ⟨fun j hj t ht => ?_, ?_⟩
  · obtain ⟨hlt, rfl⟩ := hat ht
    exact (dir_answers.2.2.2.1 j hlt).1
  · have := hends i (by omega)
    omega

/-- The two readers do not list the same names in every directory that parses: `Ext4` stops at a
    hole between two blocks. -/
theorem read_dir_disagree : ¬ ∀ (dev : Device) (e : Ext4) (fs : Filesystem) (inode : Inode)
    (depth : Nat) (exts : List Extent), Ext4.openOn dev = .ok e → openOn dev = .ok fs →
    inode.isDir = true → inode.usesExtents = true →
    fs.Tree depth 0 (2 ^ 32) inode.block exts → fs.Parses inode.size exts →
    ∃ entries, fs.readDir inode = .ok entries ∧
      e.readDir dev inode = .ok (entries.map DirEntry.pair) := by
  intro hall
  obtain ⟨e, fs, he, hf, hcount, hsize⟩ := geometryOf_some dir_answers.1
  have hdev := (openOn_opened hf).device
  have htree := dir_tree hdev hsize hcount (Or.inr rfl)
  have hparse := dir_parses hdev hsize (Or.inr rfl) 3072
  obtain ⟨entries, hread, hdata⟩ := hall dirImage e fs (dirInode 2) 0 (dirExtents 2) he hf
    (by decide) (by decide) htree hparse
  obtain ⟨entries', hread', hpairs⟩ := @readDir_eq fs (dirExtents 2)
    (openOn_opened hf).blockSize_ne_zero (dirInode 2) (by decide) (by decide) (by decide) 0
    (2 ^ 32) htree hparse
  obtain rfl := Except.ok.inj (hread.symm.trans hread')
  have hfill : Slot.Filled fs.blockSize (fs.slots 3072 (dirExtents 2)) :=
    dir_filled hdev hsize (by decide) (by decide)
  have hseen := @readDir_seen dirImage e fs he hf (dirInode 2) (by decide) 0 (dirExtents 2) htree
    hparse hfill (by decide)
  rw [hdata, hpairs, show (dirInode 2).size = 3072 from rfl, dir_slots hdev hsize, hsize] at hseen
  exact dir_answers.2.2.2.2 (Except.ok.inj hseen)

end MkfsExt4
