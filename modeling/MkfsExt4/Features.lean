/-
  Feature masks (`src/features.rs`): the three words of feature bits, the names
  `mke2fs -O` accepts for them, the list syntax that sets and clears them, and the list that
  shows them. Two masks show the same names exactly when they agree on the bits that have one
  (`specNames_eq_iff`, `known_eq_iff`).
-/
import Mathlib.Algebra.Order.Ring.Nat
import Mathlib.Data.List.Nodup
import Mathlib.Tactic.Common

namespace MkfsExt4

/-! ## Masks -/

/-- One word of feature bits. -/
abbrev Mask := BitVec 32

def Mask.contains (m bits : Mask) : Bool := m &&& bits == bits

def Mask.remove (m bits : Mask) : Mask := m &&& ~~~bits

def Mask.set (m bits : Mask) (on : Bool) : Mask := if on then m ||| bits else m.remove bits

theorem Mask.contains_or {m other bits : Mask} (h : other &&& bits = 0) :
    Mask.contains (m ||| other) bits = m.contains bits := by
  have hand : (m ||| other) &&& bits = m &&& bits := by
    rw [BitVec.and_comm, BitVec.and_or_distrib_left, BitVec.and_comm bits other, h,
      BitVec.and_comm]
    exact BitVec.or_zero
  rw [contains, hand, contains]

theorem Mask.contains_remove {m other bits : Mask} (h : other &&& bits = 0) :
    (m.remove other).contains bits = m.contains bits := by
  have hkeep : ~~~other &&& bits = bits := by
    ext i hi
    have hbit : (other &&& bits)[i] = (0 : Mask)[i] := by rw [h]
    simp only [BitVec.getElem_and, BitVec.getElem_not] at hbit ⊢
    cases hb : bits[i] <;> cases ho : other[i] <;> simp_all
  rw [contains, remove, BitVec.and_assoc, hkeep, contains]

theorem Mask.contains_or_self (m bits : Mask) : Mask.contains (m ||| bits) bits = true := by
  rw [contains, beq_iff_eq]
  ext i hi
  simp only [BitVec.getElem_and, BitVec.getElem_or]
  cases m[i] <;> cases bits[i] <;> rfl

namespace CompatFeatures

def hasJournal : Mask := 0x0004
def extAttr : Mask := 0x0008
def resizeInode : Mask := 0x0010
def dirIndex : Mask := 0x0020
def orphanFile : Mask := 0x1000

end CompatFeatures

namespace IncompatFeatures

def filetype : Mask := 0x0002
def recover : Mask := 0x0004
def journalDev : Mask := 0x0008
def metaBg : Mask := 0x0010
def extents : Mask := 0x0040
def sixtyFourBit : Mask := 0x0080
def mmp : Mask := 0x0100
def flexBg : Mask := 0x0200
def csumSeed : Mask := 0x2000

end IncompatFeatures

namespace RoCompatFeatures

def sparseSuper : Mask := 0x0001
def largeFile : Mask := 0x0002
def hugeFile : Mask := 0x0008
def gdtCsum : Mask := 0x0010
def dirNlink : Mask := 0x0020
def extraIsize : Mask := 0x0040
def bigalloc : Mask := 0x0200
def metadataCsum : Mask := 0x0400
def orphanPresent : Mask := 0x10000

end RoCompatFeatures

/-- The three feature masks together. -/
structure FeatureMasks where
  compat : Mask := 0
  incompat : Mask := 0
  roCompat : Mask := 0
deriving DecidableEq, Repr

/-! ## Names -/

/-- Which mask a feature name belongs to. -/
inductive FeatureSet where
  | compat
  | incompat
  | roCompat
deriving DecidableEq, Repr

/-- A single feature bit, resolved from its `mke2fs` name. -/
structure Feature where
  set : FeatureSet
  bit : Mask
  name : String
deriving DecidableEq, Repr

/-- `FEATURES`: every accepted name; aliases are entries of their own. -/
def features : List Feature :=
  [⟨.compat, 0x0001, "dir_prealloc"⟩,
   ⟨.compat, 0x0002, "imagic_inodes"⟩,
   ⟨.compat, 0x0004, "has_journal"⟩,
   ⟨.compat, 0x0008, "ext_attr"⟩,
   ⟨.compat, 0x0010, "resize_inode"⟩,
   ⟨.compat, 0x0020, "dir_index"⟩,
   ⟨.compat, 0x0040, "lazy_bg"⟩,
   ⟨.compat, 0x0100, "exclude_bitmap"⟩,
   ⟨.compat, 0x0200, "sparse_super2"⟩,
   ⟨.compat, 0x0400, "fast_commit"⟩,
   ⟨.compat, 0x0800, "stable_inodes"⟩,
   ⟨.compat, 0x1000, "orphan_file"⟩,
   ⟨.incompat, 0x0001, "compression"⟩,
   ⟨.incompat, 0x0002, "filetype"⟩,
   ⟨.incompat, 0x0004, "needs_recovery"⟩,
   ⟨.incompat, 0x0008, "journal_dev"⟩,
   ⟨.incompat, 0x0010, "meta_bg"⟩,
   ⟨.incompat, 0x0040, "extent"⟩,
   ⟨.incompat, 0x0040, "extents"⟩,
   ⟨.incompat, 0x0080, "64bit"⟩,
   ⟨.incompat, 0x0100, "mmp"⟩,
   ⟨.incompat, 0x0200, "flex_bg"⟩,
   ⟨.incompat, 0x0400, "ea_inode"⟩,
   ⟨.incompat, 0x1000, "dirdata"⟩,
   ⟨.incompat, 0x2000, "metadata_csum_seed"⟩,
   ⟨.incompat, 0x4000, "largedir"⟩,
   ⟨.incompat, 0x8000, "inline_data"⟩,
   ⟨.incompat, 0x10000, "encrypt"⟩,
   ⟨.incompat, 0x20000, "casefold"⟩,
   ⟨.roCompat, 0x0001, "sparse_super"⟩,
   ⟨.roCompat, 0x0002, "large_file"⟩,
   ⟨.roCompat, 0x0008, "huge_file"⟩,
   ⟨.roCompat, 0x0010, "uninit_bg"⟩,
   ⟨.roCompat, 0x0010, "uninit_groups"⟩,
   ⟨.roCompat, 0x0020, "dir_nlink"⟩,
   ⟨.roCompat, 0x0040, "extra_isize"⟩,
   ⟨.roCompat, 0x0080, "snapshot"⟩,
   ⟨.roCompat, 0x0100, "quota"⟩,
   ⟨.roCompat, 0x0200, "bigalloc"⟩,
   ⟨.roCompat, 0x0400, "metadata_csum"⟩,
   ⟨.roCompat, 0x0800, "replica"⟩,
   ⟨.roCompat, 0x1000, "read-only"⟩,
   ⟨.roCompat, 0x2000, "project"⟩,
   ⟨.roCompat, 0x4000, "shared_blocks"⟩,
   ⟨.roCompat, 0x8000, "verity"⟩,
   ⟨.roCompat, 0x10000, "orphan_present"⟩]

/-- Resolve a `mke2fs` feature name. -/
def lookup (name : String) : Option Feature := features.find? (fun feat => feat.name == name)

/-! ## Lists of names -/

/-- The characters `str::trim` takes off: Unicode's `White_Space`. -/
def isWhiteSpace (c : Char) : Bool :=
  let n := c.toNat
  (9 ≤ n && n ≤ 13) || n == 0x20 || n == 0x85 || n == 0xA0 || n == 0x1680 ||
    (0x2000 ≤ n && n ≤ 0x200A) || n == 0x2028 || n == 0x2029 || n == 0x202F || n == 0x205F ||
    n == 0x3000

def trim (token : List Char) : List Char :=
  ((token.dropWhile isWhiteSpace).reverse.dropWhile isWhiteSpace).reverse

/-- The tokens of a feature list: split at commas, trimmed, the empty ones dropped. -/
def tokens (spec : String) : List (List Char) :=
  ((spec.toList.splitOn ',').map trim).filter (fun token => !token.isEmpty)

def toAsciiLowercase (c : Char) : Char :=
  if 'A' ≤ c ∧ c ≤ 'Z' then Char.ofNat (c.toNat + 32) else c

def eqIgnoreAsciiCase (a b : List Char) : Bool :=
  a.map toAsciiLowercase == b.map toAsciiLowercase

namespace FeatureMasks

def setBit (m : FeatureMasks) (feat : Feature) (on : Bool) : FeatureMasks :=
  match feat.set with
  | .compat => { m with compat := m.compat.set feat.bit on }
  | .incompat => { m with incompat := m.incompat.set feat.bit on }
  | .roCompat => { m with roCompat := m.roCompat.set feat.bit on }

def applyToken (m : FeatureMasks) (token : List Char) : Except String FeatureMasks :=
  if eqIgnoreAsciiCase token "none".toList then
    .ok {}
  else
    let (clear, rest) := match token with
      | '^' :: rest => (true, rest)
      | _ => (false, token)
    let name := String.ofList rest
    match lookup name with
    | none => .error s!"unknown feature '{name}'"
    | some feat => .ok (m.setBit feat (!clear))

/-- A `mke2fs -O` list: `feature`, `^feature` to clear, `none` to clear everything. -/
def apply (m : FeatureMasks) (spec : String) : Except String FeatureMasks :=
  (tokens spec).foldlM applyToken m

/-! ## Rendering -/

def mask (m : FeatureMasks) : FeatureSet → Mask
  | .compat => m.compat
  | .incompat => m.incompat
  | .roCompat => m.roCompat

/-- One turn of `to_spec`: the names so far and the bits they stand for. -/
def specTurn (m : FeatureMasks) (st : List String × List (FeatureSet × Mask)) (feat : Feature) :
    List String × List (FeatureSet × Mask) :=
  if m.mask feat.set &&& feat.bit = 0 then st
  else if (feat.set, feat.bit) ∈ st.2 then st
  else (st.1 ++ [feat.name], st.2 ++ [(feat.set, feat.bit)])

/-- The names of the features set, each bit under its first name. -/
def specNames (m : FeatureMasks) : List String := (features.foldl m.specTurn ([], [])).1

/-- The set features as a `mke2fs`-style list. -/
def toSpec (m : FeatureMasks) : String := ",".intercalate m.specNames

/-- The feature is set. -/
def Has (m : FeatureMasks) (feat : Feature) : Prop := m.mask feat.set &&& feat.bit ≠ 0

instance (m : FeatureMasks) : DecidablePred m.Has :=
  fun feat => inferInstanceAs (Decidable (m.mask feat.set &&& feat.bit ≠ 0))

/-- What the loop of `to_spec` keeps over the features `done`: each name stands for a feature
    that is set, and each feature set has its bit under some name. -/
structure Spelled (m : FeatureMasks) (done : List Feature)
    (st : List String × List (FeatureSet × Mask)) : Prop where
  set : ∀ name ∈ st.1, ∃ feat ∈ done, feat.name = name ∧ m.Has feat
  seen : ∀ feat ∈ done, m.Has feat → (feat.set, feat.bit) ∈ st.2
  named : ∀ id ∈ st.2, ∃ feat ∈ done, (feat.set, feat.bit) = id ∧ feat.name ∈ st.1

theorem Spelled.turn {m : FeatureMasks} {done : List Feature}
    {st : List String × List (FeatureSet × Mask)} (h : m.Spelled done st) (feat : Feature) :
    m.Spelled (done ++ [feat]) (m.specTurn st feat) := by
  have hset : ∀ name ∈ st.1, ∃ f ∈ done ++ [feat], f.name = name ∧ m.Has f := fun name hn => by
    obtain ⟨f, hf, hname⟩ := h.set name hn
    exact ⟨f, List.mem_append_left _ hf, hname⟩
  have hnamed : ∀ id ∈ st.2, ∃ f ∈ done ++ [feat], (f.set, f.bit) = id ∧ f.name ∈ st.1 :=
    fun id hid => by
      obtain ⟨f, hf, hname⟩ := h.named id hid
      exact ⟨f, List.mem_append_left _ hf, hname⟩
  have hlast : feat ∈ done ++ [feat] := List.mem_append_right _ List.mem_cons_self
  unfold specTurn
  split
  · next hzero =>
    refine ⟨hset, fun f hf hhas => ?_, hnamed⟩
    rcases List.mem_append.mp hf with hf | hf
    · exact h.seen f hf hhas
    · cases List.mem_singleton.mp hf
      exact absurd hzero hhas
  · next hhas =>
    split
    · next hseen =>
      refine ⟨hset, fun f hf hhas' => ?_, hnamed⟩
      rcases List.mem_append.mp hf with hf | hf
      · exact h.seen f hf hhas'
      · cases List.mem_singleton.mp hf
        exact hseen
    · refine ⟨fun name hn => ?_, fun f hf hhas' => ?_, fun id hid => ?_⟩
      · rcases List.mem_append.mp hn with hn | hn
        · exact hset name hn
        · exact ⟨feat, hlast, (List.mem_singleton.mp hn).symm, hhas⟩
      · rcases List.mem_append.mp hf with hf | hf
        · exact List.mem_append_left _ (h.seen f hf hhas')
        · cases List.mem_singleton.mp hf
          exact List.mem_append_right _ List.mem_cons_self
      · rcases List.mem_append.mp hid with hid | hid
        · obtain ⟨f, hf, hname⟩ := hnamed id hid
          exact ⟨f, hf, hname.1, List.mem_append_left _ hname.2⟩
        · exact ⟨feat, hlast, (List.mem_singleton.mp hid).symm,
            List.mem_append_right _ List.mem_cons_self⟩

theorem spelled (m : FeatureMasks) : m.Spelled features (features.foldl m.specTurn ([], [])) := by
  suffices hgen : ∀ (todo done : List Feature) st, m.Spelled done st →
      m.Spelled (done ++ todo) (todo.foldl m.specTurn st) from
    hgen features [] _ ⟨nofun, nofun, nofun⟩
  intro todo
  induction todo with
  | nil => exact fun done st h => by rwa [List.append_nil]
  | cons feat todo ih =>
    intro done st h
    have hnext := ih _ _ (h.turn feat)
    rwa [List.append_assoc] at hnext

theorem features_names_nodup : (features.map Feature.name).Nodup := by decide

/-- Masks whose features go by the same names have the same features set. -/
theorem has_of_names {l r : FeatureMasks} (h : ∀ name ∈ l.specNames, name ∈ r.specNames)
    {feat : Feature} (hf : feat ∈ features) (hl : l.Has feat) : r.Has feat := by
  obtain ⟨first, hfirst, hid, hname⟩ := l.spelled.named _ (l.spelled.seen feat hf hl)
  obtain ⟨other, hother, hsame, hr⟩ := r.spelled.set first.name (h _ hname)
  obtain rfl : other = first :=
    List.inj_on_of_nodup_map features_names_nodup hother hfirst hsame
  obtain ⟨hset, hbit⟩ := Prod.mk.inj hid
  unfold Has at hr ⊢
  rwa [hset, hbit] at hr

/-- The masks have the same names exactly when they have the same features set. -/
theorem specNames_eq_iff {l r : FeatureMasks} :
    ((∀ name ∈ l.specNames, name ∈ r.specNames) ∧ ∀ name ∈ r.specNames, name ∈ l.specNames) ↔
      ∀ feat ∈ features, l.Has feat ↔ r.Has feat := by
  constructor
  · intro h feat hf
    exact ⟨has_of_names h.1 hf, has_of_names h.2 hf⟩
  · intro h
    have hsame : l.specNames = r.specNames := by
      refine congrArg Prod.fst (List.foldl_ext _ _ _ fun st feat hf => ?_)
      have hiff := not_congr (h feat hf)
      unfold Has at hiff
      simp only [ne_eq, not_not] at hiff
      unfold specTurn
      rw [if_congr hiff rfl rfl]
    rw [hsame]
    exact ⟨fun _ hn => hn, fun _ hn => hn⟩

/-! ## Bits with a name -/

/-- The bits of a mask that have a name. -/
def named (set : FeatureSet) : Mask :=
  (features.filter fun feat => feat.set = set).foldl (fun m feat => m ||| feat.bit) 0

/-- The masks without the bits that have no name. -/
def known (m : FeatureMasks) : FeatureMasks where
  compat := m.compat &&& named .compat
  incompat := m.incompat &&& named .incompat
  roCompat := m.roCompat &&& named .roCompat

theorem mask_known (m : FeatureMasks) (set : FeatureSet) :
    m.known.mask set = m.mask set &&& named set := by
  cases set <;> rfl

theorem bit_named : ∀ feat ∈ features, feat.bit &&& named feat.set = feat.bit := by decide

/-- Each bit that has a name is the bit of one feature. -/
theorem named_bit (set : FeatureSet) (i : Fin 32) (h : (named set)[i] = true) :
    ∃ feat ∈ features, feat.set = set ∧ feat.bit = BitVec.twoPow 32 i := by
  revert i
  cases set <;> decide

/-- A feature is set exactly when its bit is. -/
theorem has_twoPow {m : FeatureMasks} {feat : Feature} {i : Nat} (hi : i < 32)
    (hbit : feat.bit = BitVec.twoPow 32 i) : m.Has feat ↔ (m.mask feat.set).getLsbD i = true := by
  have hpow : BitVec.twoPow 32 i ≠ 0 := by
    intro hzero
    have hone : (BitVec.twoPow 32 i).getLsbD i = true := by
      rw [BitVec.getLsbD_twoPow, decide_eq_true hi, decide_eq_true rfl, Bool.and_self]
    rw [hzero] at hone
    exact Bool.false_ne_true (BitVec.getLsbD_zero.symm.trans hone)
  unfold Has
  rw [hbit, BitVec.and_twoPow]
  cases (m.mask feat.set).getLsbD i with
  | false => exact iff_of_false (fun h => h rfl) Bool.false_ne_true
  | true => exact iff_of_true hpow rfl

/-- Masks have the same features set exactly when they agree on the bits that have a name. -/
theorem known_eq_iff {l r : FeatureMasks} :
    l.known = r.known ↔ ∀ feat ∈ features, l.Has feat ↔ r.Has feat := by
  constructor
  · intro h feat hf
    have hmask : ∀ m : FeatureMasks, m.mask feat.set &&& feat.bit =
        m.known.mask feat.set &&& feat.bit := fun m => by
      rw [mask_known, BitVec.and_assoc, BitVec.and_comm (named feat.set), bit_named feat hf]
    unfold Has
    rw [hmask l, hmask r, h]
  · intro h
    have hset : ∀ set, l.mask set &&& named set = r.mask set &&& named set := by
      intro set
      ext i hi
      rw [BitVec.getElem_and, BitVec.getElem_and]
      cases hn : (named set)[i] with
      | false => rw [Bool.and_false, Bool.and_false]
      | true =>
        obtain ⟨feat, hf, rfl, hbit⟩ := named_bit set ⟨i, hi⟩ hn
        have hiff := h feat hf
        rw [has_twoPow hi hbit, has_twoPow hi hbit] at hiff
        rw [Bool.and_true, Bool.and_true, ← BitVec.getLsbD_eq_getElem, ← BitVec.getLsbD_eq_getElem]
        exact Bool.eq_iff_iff.mpr hiff
    rw [known, known, FeatureMasks.mk.injEq]
    exact ⟨hset .compat, hset .incompat, hset .roCompat⟩

end FeatureMasks

end MkfsExt4
