/-
  What the attribute writers leave for the readers (`src/structs/xattr.rs`).

  `attrFields` are the fields an attribute puts in its area; `laid_putAttrs` says that all of them
  stand there once the whole list is written, and `parseFrom_laid` walks over them.
-/
import MkfsExt4.Lib.Record
import MkfsExt4.Structs.Xattr

namespace MkfsExt4.Xattr

open Lib.Store Lib.Endian Lib.Hoare Lib.Utf8 Lib.Record

/-! ## The fields of an attribute -/

section Area

variable (valueBase : Nat) (hash : List UInt8 → List UInt8 → UInt32)

/-- What an attribute puts in its area: its entry at `entryAt`, its value at `valueAt`. -/
def attrFields (a : Xattr) (entryAt valueAt : Nat) : List Field :=
  [.num (entryAt + Off.eNameLen) 1 a.rest.length, .num (entryAt + Off.eNameIndex) 1 a.index,
    .num (entryAt + Off.eValueOffs) 2 (if a.value = [] then 0 else valueAt + valueBase),
    .num (entryAt + Off.eValueInum) 4 0, .num (entryAt + Off.eValueSize) 4 a.value.length,
    .num (entryAt + Off.eHash) 4 (hash a.rest a.value).toNat,
    ⟨entryAt + entryLen, a.rest.length, a.rest, rfl⟩, ⟨valueAt, a.value.length, a.value, rfl⟩]

/-- Their places. -/
def attrLayout (a : Xattr) (entryAt valueAt : Nat) : List (Nat × Nat) :=
  [(entryAt + Off.eNameLen, 1), (entryAt + Off.eNameIndex, 1), (entryAt + Off.eValueOffs, 2),
    (entryAt + Off.eValueInum, 4), (entryAt + Off.eValueSize, 4), (entryAt + Off.eHash, 4),
    (entryAt + entryLen, a.rest.length), (valueAt, a.value.length)]

theorem putAttr_eq (a : Xattr) (area : List UInt8) (entryAt valueAt : Nat) :
    putAttr valueBase hash a area entryAt valueAt =
      writeAll area (attrFields valueBase hash a entryAt valueAt) := by
  unfold putAttr
  dsimp only
  split
  · next hnil =>
    have hskip : ∀ buf : List UInt8, splice buf valueAt [] = buf := fun buf => by
      rw [splice, List.take_nil, List.append_nil, List.length_nil, Nat.add_zero,
        List.take_append_drop]
    simp only [attrFields, writeAll, List.foldl_cons, List.foldl_nil, hnil, hskip]
    rfl
  · next hvalue =>
    simp only [attrFields, writeAll, List.foldl_cons, List.foldl_nil, if_neg hvalue]
    rfl

theorem roundUp_ge (n : Nat) : n ≤ roundUp n := by
  unfold roundUp
  omega

theorem entrySize_ge (a : Xattr) : entryLen + a.rest.length ≤ a.entrySize := roundUp_ge _

theorem valueSize_ge (a : Xattr) : a.value.length ≤ a.valueSize := roundUp_ge _

theorem attrLayout_apart (a : Xattr) {entryAt valueAt : Nat} (h : entryAt + a.entrySize ≤ valueAt) :
    (attrLayout a entryAt valueAt).Pairwise Apart := by
  have hentry := a.entrySize_ge
  simp only [entryLen] at hentry
  simp only [attrLayout, Off.eNameLen, Off.eNameIndex, Off.eValueOffs, Off.eValueInum,
    Off.eValueSize, Off.eHash, entryLen, List.pairwise_cons, List.forall_mem_cons,
    List.not_mem_nil, false_implies, implies_true, and_true, List.Pairwise.nil, Apart]
  omega

/-- Every field of an attribute lies in its entry or in its value. -/
theorem attrFields_within {a : Xattr} {entryAt valueAt : Nat} {f : Field}
    (hf : f ∈ attrFields valueBase hash a entryAt valueAt) :
    (entryAt ≤ f.off ∧ f.off + f.width ≤ entryAt + a.entrySize) ∨
      (valueAt ≤ f.off ∧ f.off + f.width ≤ valueAt + a.valueSize) := by
  have hentry := a.entrySize_ge
  have hvalue := a.valueSize_ge
  simp only [entryLen] at hentry
  simp only [attrFields, Off.eNameLen, Off.eNameIndex, Off.eValueOffs, Off.eValueInum,
    Off.eValueSize, Off.eHash, entryLen, List.mem_cons, List.not_mem_nil, or_false] at hf
  rcases hf with rfl | rfl | rfl | rfl | rfl | rfl | rfl | rfl <;> simp only [Field.num] <;> omega

/-! ## The fields of a list of attributes -/

/-- Bytes of the entries of a list, and of its values. -/
def entriesLen (attrs : List Xattr) : Nat := (attrs.map entrySize).sum

def valuesLen (attrs : List Xattr) : Nat := (attrs.map valueSize).sum

theorem needed_eq (attrs : List Xattr) : needed attrs = entriesLen attrs + valuesLen attrs := by
  induction attrs with
  | nil => rfl
  | cons a attrs ih =>
    simp only [needed, entriesLen, valuesLen, storedLen, List.map_cons, List.sum_cons] at ih ⊢
    omega

theorem entriesLen_cons (a : Xattr) (attrs : List Xattr) :
    entriesLen (a :: attrs) = a.entrySize + entriesLen attrs := rfl

theorem valuesLen_cons (a : Xattr) (attrs : List Xattr) :
    valuesLen (a :: attrs) = a.valueSize + valuesLen attrs := rfl

@[simp] theorem length_putAttrs (attrs : List Xattr) (area : List UInt8) (entryAt valueEnd : Nat) :
    (putAttrs valueBase hash attrs area entryAt valueEnd).length = area.length := by
  induction attrs generalizing area entryAt valueEnd with
  | nil => rfl
  | cons a attrs ih => rw [putAttrs, ih, putAttr_eq, length_writeAll]

/-- Bytes outside the entries and the values are left alone. -/
theorem slice_putAttrs_outside {attrs : List Xattr} {area : List UInt8}
    {entryAt valueEnd off n : Nat} (hvalues : valuesLen attrs ≤ valueEnd)
    (hentries : off + n ≤ entryAt ∨ entryAt + entriesLen attrs ≤ off)
    (hends : off + n ≤ valueEnd - valuesLen attrs ∨ valueEnd ≤ off) :
    slice (putAttrs valueBase hash attrs area entryAt valueEnd) off n = slice area off n := by
  induction attrs generalizing area entryAt valueEnd with
  | nil => rfl
  | cons a attrs ih =>
    rw [valuesLen_cons] at hvalues hends
    rw [entriesLen_cons] at hentries
    rw [putAttrs, ih (by omega) (by omega) (by omega), putAttr_eq]
    refine slice_writeAll_outside fun f hf => ?_
    have hwithin := attrFields_within valueBase hash hf
    simp only [Apart, Field.place]
    omega

/-- The fields of each attribute stand in `area`, entries from `entryAt` on, values up to
    `valueEnd`. -/
def Laid (area : List UInt8) : List Xattr → (entryAt valueEnd : Nat) → Prop
  | [], _, _ => True
  | a :: attrs, entryAt, valueEnd =>
    (∀ f ∈ attrFields valueBase hash a entryAt (valueEnd - a.valueSize),
      slice area f.off f.width = f.bytes) ∧
      Laid area attrs (entryAt + a.entrySize) (valueEnd - a.valueSize)

/-- Once the list is written, every field of it stands in the area. -/
theorem laid_putAttrs {attrs : List Xattr} {area : List UInt8} {entryAt valueEnd : Nat}
    (hroom : entryAt + entriesLen attrs + valuesLen attrs ≤ valueEnd)
    (hlen : valueEnd ≤ area.length) :
    Laid valueBase hash (putAttrs valueBase hash attrs area entryAt valueEnd) attrs entryAt
      valueEnd := by
  induction attrs generalizing area entryAt valueEnd with
  | nil => trivial
  | cons a attrs ih =>
    rw [entriesLen_cons, valuesLen_cons] at hroom
    have hvalue := a.valueSize_ge
    refine ⟨fun f hf => ?_, ih (by omega) (by rw [putAttr_eq, length_writeAll]; omega)⟩
    have hwithin := attrFields_within valueBase hash hf
    rw [putAttrs, slice_putAttrs_outside valueBase hash (by omega) (by omega) (by omega),
      putAttr_eq]
    obtain ⟨i, hi⟩ := List.mem_iff_getElem?.mp hf
    exact @slice_writeAll _ _ (attrLayout a entryAt (valueEnd - a.valueSize)) rfl
      (attrLayout_apart a (by omega)) _ _ hi (by omega)

/-- The attributes behind some others, where those end. -/
theorem Laid.drop {before after : List Xattr} {area : List UInt8} {entryAt valueEnd : Nat}
    (h : Laid valueBase hash area (before ++ after) entryAt valueEnd) :
    Laid valueBase hash area after (entryAt + entriesLen before) (valueEnd - valuesLen before) := by
  induction before generalizing entryAt valueEnd with
  | nil => exact h
  | cons a before ih =>
    rw [entriesLen_cons, valuesLen_cons, ← Nat.add_assoc, ← Nat.sub_sub]
    exact ih h.2

/-! ## Walking over them -/

variable {valueBase hash}

/-- The zero word is none of an entry's: its length and its index are not both zero. -/
theorem getU32_entry_ne_zero {a : Xattr} {area : List UInt8} {pos : Nat} (hname : a.name ≠ [])
    (hlen : slice area pos 1 = toLe 1 a.rest.length) (hindex : slice area (pos + 1) 1 = toLe 1 a.index)
    (hshort : a.rest.length < 256) : getU32 area pos ≠ 0 := by
  have hsplit : slice area pos 4 = slice area pos 1 ++ slice area (pos + 1) (1 + 2) :=
    slice_add area pos 1 3
  rw [getU32, hsplit, slice_add, hlen, hindex]
  intro hzero
  have hle := a.index_le
  simp only [toLe, List.cons_append, List.nil_append, ofLe, UInt8.toNat_ofNat'] at hzero
  have hindex0 : a.index = 0 := by omega
  have hrest := rest_ne_nil hname hindex0
  have hpos := List.length_pos_of_ne_nil hrest
  omega

/-- An entry with a value at `valueAt` that its offset can name. -/
structure Readable (valueBase : Nat) (a : Xattr) (area : List UInt8) (valueAt : Nat) : Prop where
  name : a.name ≠ []
  short : a.rest.length < 256
  offset : a.value ≠ [] → valueAt + valueBase < 2 ^ 16
  size : a.value.length < 2 ^ 32
  inside : valueAt + a.value.length ≤ area.length

theorem parseValue_laid {a : Xattr} {area : List UInt8} {pos valueAt : Nat}
    (hlaid : ∀ f ∈ attrFields valueBase hash a pos valueAt, slice area f.off f.width = f.bytes)
    (h : Readable valueBase a area valueAt) :
    parseValue area valueBase (getU16 area (pos + Off.eValueOffs))
      (getU32 area (pos + Off.eValueSize)) = .ok a.value := by
  have hsize : getU32 area (pos + Off.eValueSize) = a.value.length :=
    (@ofLe_slice_of_stands _ _ hlaid (pos + Off.eValueSize) _ _ (by simp [attrFields])).trans
      (Nat.mod_eq_of_lt h.size)
  rw [hsize]
  unfold parseValue
  by_cases hnil : a.value = []
  · rw [hnil]
    rfl
  · have hpos := List.length_pos_of_ne_nil hnil
    have hoff : getU16 area (pos + Off.eValueOffs) = valueAt + valueBase := by
      refine (@ofLe_slice_of_stands _ _ hlaid (pos + Off.eValueOffs) 2
        (valueAt + valueBase) ?_).trans (Nat.mod_eq_of_lt (h.offset hnil))
      simp [attrFields, hnil]
    have hvalue : slice area valueAt a.value.length = a.value :=
      hlaid ⟨valueAt, a.value.length, a.value, rfl⟩ (by simp [attrFields])
    have hin := h.inside
    rw [hoff, if_neg (by omega), if_neg (by omega), if_neg (by omega), Nat.add_sub_cancel, hvalue]

/-- One entry: it is read, and the walk goes on behind it. -/
theorem parseFrom_entry {a : Xattr} {area : List UInt8} {pos valueAt : Nat} (fuel : Nat)
    (hlaid : ∀ f ∈ attrFields valueBase hash a pos valueAt, slice area f.off f.width = f.bytes)
    (h : Readable valueBase a area valueAt) (hroom : pos + a.entrySize ≤ area.length) :
    parseFrom area valueBase (fuel + 1) pos =
      (do return a :: (← parseFrom area valueBase fuel (pos + a.entrySize))) := by
  have hentry := a.entrySize_ge
  simp only [entryLen] at hentry
  have hlen8 : slice area (pos + Off.eNameLen) 1 = toLe 1 a.rest.length :=
    hlaid (.num (pos + Off.eNameLen) 1 a.rest.length) (by simp [attrFields])
  have hindex8 : slice area (pos + Off.eNameIndex) 1 = toLe 1 a.index :=
    hlaid (.num (pos + Off.eNameIndex) 1 a.index) (by simp [attrFields])
  have hlen : getU8 area (pos + Off.eNameLen) = a.rest.length :=
    (getU8_of_slice hlen8).trans (Nat.mod_eq_of_lt h.short)
  have hindex : getU8 area (pos + Off.eNameIndex) = a.index :=
    (getU8_of_slice hindex8).trans (Nat.mod_eq_of_lt (Nat.lt_of_le_of_lt a.index_le (by decide)))
  have hinum : getU32 area (pos + Off.eValueInum) = 0 :=
    @ofLe_slice_of_stands _ _ hlaid (pos + Off.eValueInum) 4 0 (by simp [attrFields])
  have hrest : slice area (pos + entryLen) a.rest.length = a.rest :=
    hlaid ⟨pos + entryLen, a.rest.length, a.rest, rfl⟩ (by simp [attrFields])
  have hword : getU32 area pos ≠ 0 := getU32_entry_ne_zero h.name hlen8 hindex8 h.short
  have hname : joinName a.index (fromUtf8Lossy a.rest) = a.name := by
    rw [rest, fromUtf8Lossy_utf8]
    exact joinName_splitName a.name
  rw [parseFrom]
  dsimp only
  rw [hlen, hindex, if_neg (by omega), if_neg hword, if_neg (by simp only [entryLen]; omega),
    if_neg (not_not.mpr hinum), if_neg (by simp only [entryLen]; omega), hrest, hname,
    parseValue_laid hlaid h]
  rfl

/-- Attributes whose fields stand in the area are read one after another. -/
theorem parseFrom_laid {before after : List Xattr} {area : List UInt8} {pos valueEnd : Nat}
    (fuel : Nat) (hlaid : Laid valueBase hash area (before ++ after) pos valueEnd)
    (hnames : ∀ a ∈ before, a.name ≠ []) (hshort : ∀ a ∈ before, a.rest.length < 256)
    (hroom : pos + entriesLen before + valuesLen before ≤ valueEnd)
    (hlen : valueEnd ≤ area.length) (hoffsets : valueEnd + valueBase < 2 ^ 16 + 4) :
    parseFrom area valueBase (before.length + fuel) pos =
      (do return before ++ (← parseFrom area valueBase fuel (pos + entriesLen before))) := by
  induction before generalizing pos valueEnd with
  | nil =>
    simp only [List.length_nil, Nat.zero_add, List.nil_append]
    exact (bind_pure _).symm
  | cons a before ih =>
    rw [entriesLen_cons, valuesLen_cons] at hroom
    obtain ⟨hfields, hlaid⟩ := hlaid
    obtain ⟨hname, hnames⟩ := List.forall_mem_cons.mp hnames
    obtain ⟨hshort1, hshort⟩ := List.forall_mem_cons.mp hshort
    have hvalue := a.valueSize_ge
    have hread : Readable valueBase a area (valueEnd - a.valueSize) := by
      refine ⟨hname, hshort1, fun hne => ?_, by omega, by omega⟩
      have hpos := List.length_pos_of_ne_nil hne
      have : 4 ≤ a.valueSize := by
        unfold valueSize roundUp
        omega
      omega
    rw [List.length_cons, Nat.add_right_comm, parseFrom_entry _ hfields hread (by omega),
      ih hlaid hnames hshort (by omega) (by omega) (by omega), entriesLen_cons, Nat.add_assoc]
    simp only [bind_assoc, pure_bind, List.cons_append]

/-- An entry whose remainder does not fit its length byte is not read back under its name. -/
theorem parseFrom_long {a : Xattr} {area : List UInt8} {pos valueAt fuel : Nat}
    (hlaid : ∀ f ∈ attrFields valueBase hash a pos valueAt, slice area f.off f.width = f.bytes)
    (hlong : 256 ≤ a.rest.length) {b : Xattr} {more : List Xattr}
    (h : parseFrom area valueBase fuel pos = .ok (b :: more)) : b.name ≠ a.name := by
  cases fuel with
  | zero => cases h
  | succ fuel =>
    have hlen : getU8 area (pos + Off.eNameLen) = a.rest.length % 256 :=
      getU8_of_slice (hlaid (.num (pos + Off.eNameLen) 1 a.rest.length) (by simp [attrFields]))
    have hindex : getU8 area (pos + Off.eNameIndex) = a.index :=
      (getU8_of_slice (hlaid (.num (pos + Off.eNameIndex) 1 a.index) (by simp [attrFields]))).trans
        (Nat.mod_eq_of_lt (Nat.lt_of_le_of_lt a.index_le (by decide)))
    have hrest : slice area (pos + entryLen) a.rest.length = a.rest :=
      hlaid ⟨pos + entryLen, a.rest.length, a.rest, rfl⟩ (by simp [attrFields])
    have hcut : ∀ n ≤ a.rest.length, slice area (pos + entryLen) n = a.rest.take n := by
      intro n hn
      conv_rhs => rw [← hrest]
      rw [slice, slice, List.take_take, Nat.min_eq_left hn]
    rw [parseFrom, hlen, hindex, hcut _ (Nat.mod_le _ _)] at h
    dsimp only at h
    split at h
    · cases h
    split at h
    · cases h
    split at h
    · cases h
    split at h
    · cases h
    split at h
    · cases h
    obtain ⟨value, -, h⟩ := bind_ok h
    obtain ⟨tail, -, h⟩ := bind_ok h
    obtain ⟨rfl, -⟩ := List.cons.inj (Except.ok.inj h)
    intro hname
    rw [← joinName_splitName a.name] at hname
    exact fromUtf8Lossy_take_ne (by rw [← rest]; omega) (joinName_cancel hname)

/-! ## A whole area -/

/-- Every stored remainder fits the byte that holds its length. -/
def ShortNames (attrs : List Xattr) : Prop := ∀ a ∈ attrs, a.rest.length < 256

instance (attrs : List Xattr) : Decidable (ShortNames attrs) :=
  inferInstanceAs (Decidable (∀ a ∈ attrs, a.rest.length < 256))

/-- Reading gave the attributes back, sorted. -/
def GivesBack (result : Except Error (List Xattr)) (attrs : List Xattr) : Prop :=
  ∃ out, result = .ok out ∧ out.Perm attrs ∧ out.Pairwise fun a b => a.key ≤ b.key

theorem length_le_entriesLen (attrs : List Xattr) : attrs.length ≤ entriesLen attrs := by
  induction attrs with
  | nil => exact Nat.le_refl 0
  | cons a attrs ih =>
    have hentry := a.entrySize_ge
    simp only [entryLen] at hentry
    rw [List.length_cons, entriesLen_cons]
    omega

theorem needed_perm {attrs attrs' : List Xattr} (h : attrs.Perm attrs') :
    needed attrs = needed attrs' := (h.map storedLen).sum_nat

variable (valueBase hash) in
/-- An area with attributes in it, zero before. -/
def filled (attrs : List Xattr) (len : Nat) : List UInt8 :=
  putAttrs valueBase hash attrs (List.replicate len 0) 0 len

variable {attrs : List Xattr} {len : Nat} (hfits : needed attrs + 4 ≤ len)

include hfits in
theorem laid_filled : Laid valueBase hash (filled valueBase hash attrs len) attrs 0 len := by
  rw [needed_eq] at hfits
  exact laid_putAttrs valueBase hash (by omega) (by rw [List.length_replicate])

include hfits in
/-- Behind the last entry stands the zero word. -/
theorem getU32_filled_end : getU32 (filled valueBase hash attrs len) (entriesLen attrs) = 0 := by
  rw [needed_eq] at hfits
  rw [getU32, filled, slice_putAttrs_outside _ _ (by omega) (by omega) (by omega)]
  exact getU32_zeroes len _

include hfits in
theorem parseEntries_short (hoffsets : len + valueBase < 2 ^ 16 + 4)
    (hnames : ∀ a ∈ attrs, a.name ≠ []) (hshort : ShortNames attrs) :
    parseEntries (filled valueBase hash attrs len) valueBase = .ok attrs := by
  have hlaid : Laid valueBase hash (filled valueBase hash attrs len) (attrs ++ []) 0 len := by
    rw [List.append_nil]
    exact laid_filled hfits
  have hzero : getU32 (filled valueBase hash attrs len) (entriesLen attrs) = 0 :=
    getU32_filled_end hfits
  have hcount := length_le_entriesLen attrs
  rw [needed_eq] at hfits
  have hlen : (filled valueBase hash attrs len).length = len := by
    rw [filled, length_putAttrs, List.length_replicate]
  obtain ⟨fuel, hfuel⟩ : ∃ fuel, len = attrs.length + (fuel + 1) := ⟨len - attrs.length - 1, by omega⟩
  rw [parseEntries, hlen]
  conv_lhs => arg 3; rw [hfuel]
  rw [parseFrom_laid (fuel + 1) hlaid hnames hshort (by omega) (by omega) hoffsets, Nat.zero_add,
    parseFrom]
  dsimp only
  rw [if_neg (by omega), if_pos hzero]
  exact congrArg Except.ok (List.append_nil attrs)

include hfits in
theorem parseEntries_long (hoffsets : len + valueBase < 2 ^ 16 + 4)
    (hnames : ∀ a ∈ attrs, a.name ≠ []) (hlong : ¬ ShortNames attrs) :
    parseEntries (filled valueBase hash attrs len) valueBase ≠ .ok attrs := by
  -- The walk goes well up to the first name that is too long.
  obtain ⟨a, ha, hal⟩ : ∃ a ∈ attrs, 256 ≤ a.rest.length := by
    simpa [ShortNames] using hlong
  obtain ⟨first, hfirst⟩ := Option.isSome_iff_exists.mp
    (List.find?_isSome.mpr ⟨a, ha, decide_eq_true hal⟩ :
      (attrs.find? fun a => 256 ≤ a.rest.length).isSome = true)
  obtain ⟨hp, before, after, hsplit, hbefore⟩ := List.find?_eq_some_iff_append.mp hfirst
  have hshort : ∀ b ∈ before, b.rest.length < 256 := fun b hb => by
    simpa using hbefore b hb
  have hlaid : Laid valueBase hash (filled valueBase hash attrs len) attrs 0 len :=
    laid_filled hfits
  have hlen : (filled valueBase hash attrs len).length = len := by
    rw [filled, length_putAttrs, List.length_replicate]
  have hcount := length_le_entriesLen attrs
  rw [needed_eq] at hfits
  rw [parseEntries, hlen]
  generalize filled valueBase hash attrs len = area at hlaid hlen
  subst hsplit
  simp only [entriesLen, valuesLen, List.map_append, List.sum_append, List.length_append] at hfits hcount
  obtain ⟨fuel, hfuel⟩ : ∃ fuel, len = before.length + fuel := ⟨len - before.length, by omega⟩
  intro h
  conv at h => lhs; arg 3; rw [hfuel]
  rw [parseFrom_laid fuel hlaid (fun b hb => hnames b (List.mem_append_left _ hb)) hshort
    (by simp only [entriesLen, valuesLen]; omega) (by omega) hoffsets] at h
  obtain ⟨out, hout, h⟩ := bind_ok h
  rw [List.append_cancel_left (Except.ok.inj h)] at hout
  exact parseFrom_long hlaid.drop.1 (of_decide_eq_true hp) hout rfl

/-- What is read of a filled area is what was put there, sorted, exactly when the names fit. -/
theorem givesBack_iff {attrs : List Xattr} {len : Nat} (hfits : needed attrs + 4 ≤ len)
    (hoffsets : len + valueBase < 2 ^ 16 + 4) (hdistinct : Distinct attrs)
    (hnames : ∀ a ∈ attrs, a.name ≠ []) :
    GivesBack (parseEntries (filled valueBase hash (sorted attrs) len) valueBase) attrs ↔
      ShortNames attrs := by
  have hperm := sorted_perm attrs
  rw [← needed_perm hperm] at hfits
  replace hnames : ∀ a ∈ sorted attrs, a.name ≠ [] := fun a ha => hnames a (hperm.mem_iff.mp ha)
  constructor
  · intro h
    obtain ⟨out, hout, hsame, hpair⟩ := h
    obtain rfl := eq_of_sorted hdistinct hsame hperm hpair (sorted_pairwise attrs)
    by_contra hlong
    refine parseEntries_long hfits hoffsets hnames (fun h => hlong fun a ha => ?_) hout
    exact h a (hperm.mem_iff.mpr ha)
  · intro hshort
    have hshort : ShortNames (sorted attrs) := fun a ha => hshort a (hperm.mem_iff.mp ha)
    exact ⟨sorted attrs, parseEntries_short hfits hoffsets hnames hshort, hperm,
      sorted_pairwise attrs⟩

end Area

end MkfsExt4.Xattr
