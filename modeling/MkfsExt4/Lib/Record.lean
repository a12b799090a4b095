/-
  Records laid out in a buffer: fields at fixed places, written one after another.

  A `Field` is an offset, a width and bytes of that width. `writeAll` writes a list of fields.
  Proved: with a layout in which no two fields overlap, each field reads back as its bytes
  (`slice_writeAll`), and bytes outside every field are those of the buffer
  (`slice_writeAll_outside`). A layout is a list of numbers, so that it can be decided.
-/
import MkfsExt4.Lib.Store
import MkfsExt4.Lib.Endian

namespace Lib.Record

open Lib.Store Lib.Endian

structure Field where
  off : Nat
  width : Nat
  bytes : List UInt8
  length_bytes : bytes.length = width

/-- A little-endian number. -/
def Field.num (off width v : Nat) : Field := ⟨off, width, toLe width v, length_toLe width v⟩

/-- The place of a field. -/
def Field.place (f : Field) : Nat × Nat := (f.off, f.width)

/-- Two places with no byte in common. -/
def Apart (p q : Nat × Nat) : Prop := p.1 + p.2 ≤ q.1 ∨ q.1 + q.2 ≤ p.1

instance (p q : Nat × Nat) : Decidable (Apart p q) := inferInstanceAs (Decidable (_ ∨ _))

def writeAll (buf : List UInt8) (fields : List Field) : List UInt8 :=
  fields.foldl (fun buf f => splice buf f.off f.bytes) buf

@[simp] theorem length_writeAll (buf : List UInt8) (fields : List Field) :
    (writeAll buf fields).length = buf.length := by
  unfold writeAll
  induction fields generalizing buf with
  | nil => rfl
  | cons f fields ih => rw [List.foldl_cons, ih, length_splice]

/-- Bytes apart from every field are left alone. -/
theorem slice_writeAll_outside {fields : List Field} {buf : List UInt8} {off n : Nat}
    (h : ∀ f ∈ fields, Apart (off, n) f.place) :
    slice (writeAll buf fields) off n = slice buf off n := by
  unfold writeAll
  induction fields generalizing buf with
  | nil => rfl
  | cons f fields ih =>
    have hf := h f List.mem_cons_self
    simp only [Apart, Field.place] at hf
    rw [List.foldl_cons, ih fun g hg => h g (List.mem_cons_of_mem _ hg),
      slice_splice_disjoint (by rw [f.length_bytes]; exact hf)]

/-- Each field of a record reads back as its bytes. -/
theorem slice_writeAll {fields : List Field} {buf : List UInt8} {layout : List (Nat × Nat)}
    (hlayout : fields.map Field.place = layout) (hapart : layout.Pairwise Apart) {i : Nat}
    {f : Field} (hf : fields[i]? = some f) (hin : f.off + f.width ≤ buf.length) :
    slice (writeAll buf fields) f.off f.width = f.bytes := by
  subst hlayout
  have hpair : fields.Pairwise fun f g => Apart f.place g.place := List.pairwise_map.mp hapart
  clear hapart
  induction fields generalizing buf i with
  | nil => simp at hf
  | cons g fields ih =>
    obtain ⟨hg, hpair⟩ := List.pairwise_cons.mp hpair
    cases i with
    | zero =>
      obtain rfl := Option.some.inj hf
      have hrest : slice (writeAll (splice buf g.off g.bytes) fields) g.off g.width =
          slice (splice buf g.off g.bytes) g.off g.width :=
        slice_writeAll_outside fun h hh => hg h hh
      rw [writeAll, List.foldl_cons]
      exact hrest.trans (slice_splice g.length_bytes hin)
    | succ i =>
      rw [writeAll, List.foldl_cons]
      exact @ih (splice buf g.off g.bytes) i hf (by rw [length_splice]; exact hin) hpair

/-- A number whose field stands in a buffer reads back cut to its width. -/
theorem ofLe_slice_of_stands {fields : List Field} {buf : List UInt8}
    (h : ∀ f ∈ fields, slice buf f.off f.width = f.bytes) {off width v : Nat}
    (hf : .num off width v ∈ fields) : ofLe (slice buf off width) = v % 256 ^ width := by
  have hbytes := h _ hf
  simp only [Field.num] at hbytes
  rw [hbytes, ofLe_toLe]

/-- Where a field reaches, what stood in the buffer before does not matter. -/
theorem getD_writeAll_congr {fields : List Field} {buf buf' : List UInt8} {i : Nat}
    (hlen : buf'.length = buf.length) (hi : i < buf.length)
    (h : (∃ f ∈ fields, f.off ≤ i ∧ i < f.off + f.width) ∨ buf.getD i 0 = buf'.getD i 0) :
    (writeAll buf fields).getD i 0 = (writeAll buf' fields).getD i 0 := by
  unfold writeAll
  induction fields generalizing buf buf' with
  | nil =>
    rcases h with ⟨f, hf, _⟩ | h
    · exact absurd hf List.not_mem_nil
    · exact h
  | cons f fields ih =>
    rw [List.foldl_cons, List.foldl_cons]
    refine ih (by rw [length_splice, length_splice, hlen]) (by rw [length_splice]; exact hi) ?_
    rw [getD_splice _ _ hi, getD_splice _ _ (by rw [hlen]; exact hi), f.length_bytes]
    by_cases hin : f.off ≤ i ∧ i < f.off + f.width
    · exact Or.inr (by rw [if_pos hin, if_pos hin])
    · rcases h with ⟨g, hg, hgi⟩ | h
      · rcases List.mem_cons.mp hg with rfl | hg
        · exact absurd hgi hin
        · exact Or.inl ⟨g, hg, hgi⟩
      · exact Or.inr (by rw [if_neg hin, if_neg hin, h])

/-- A byte in no field is that of the buffer. -/
theorem getD_writeAll_outside {fields : List Field} {buf : List UInt8} {i : Nat}
    (h : ∀ f ∈ fields, ¬ (f.off ≤ i ∧ i < f.off + f.width)) :
    (writeAll buf fields).getD i 0 = buf.getD i 0 := by
  have hout : slice (writeAll buf fields) i 1 = slice buf i 1 :=
    slice_writeAll_outside fun f hf => by
      have := h f hf
      simp only [Apart, Field.place]
      omega
  have hget := congrArg (fun bs => bs.getD 0 0) hout
  simpa only [getD_slice _ _ _ _ _ Nat.one_pos, Nat.add_zero] using hget

/-- A function that writes the same bytes at the same places of every buffer. -/
def Writes (g : List UInt8 → List UInt8) : Prop :=
  ∃ fields : List Field, ∀ buf, g buf = writeAll buf fields

namespace Writes

variable {g : List UInt8 → List UInt8}

theorem nothing : Writes fun buf => buf := ⟨[], fun _ => rfl⟩

theorem splice (h : Writes g) (off : Nat) (bs : List UInt8) :
    Writes fun buf => Lib.Store.splice (g buf) off bs := by
  obtain ⟨fields, hg⟩ := h
  refine ⟨fields ++ [⟨off, bs.length, bs, rfl⟩], fun buf => ?_⟩
  dsimp only
  rw [hg, writeAll, writeAll, List.foldl_append]
  rfl

/-- Of each byte it decides without a look at the buffer, or leaves it alone. -/
theorem getD_cases (h : Writes g) {buf buf' : List UInt8} (hlen : buf'.length = buf.length) {i : Nat}
    (hi : i < buf.length) : (g buf).getD i 0 = (g buf').getD i 0 ∨
      (g buf).getD i 0 = buf.getD i 0 ∧ (g buf').getD i 0 = buf'.getD i 0 := by
  obtain ⟨fields, hg⟩ := h
  rw [hg, hg]
  by_cases hin : ∃ f ∈ fields, f.off ≤ i ∧ i < f.off + f.width
  · exact Or.inl (getD_writeAll_congr hlen hi (Or.inl hin))
  · have hout : ∀ f ∈ fields, ¬ (f.off ≤ i ∧ i < f.off + f.width) := fun f hf hfi => hin ⟨f, hf, hfi⟩
    exact Or.inr ⟨getD_writeAll_outside hout, getD_writeAll_outside hout⟩

end Writes
/-- A number of a record reads back cut to its width. -/
theorem ofLe_slice_writeAll {fields : List Field} {buf : List UInt8} {layout : List (Nat × Nat)}
    (hlayout : fields.map Field.place = layout) (hapart : layout.Pairwise Apart) {i : Nat}
    {off width v : Nat} (hf : fields[i]? = some (.num off width v))
    (hin : off + width ≤ buf.length) :
    ofLe (slice (writeAll buf fields) off width) = v % 256 ^ width := by
  have := slice_writeAll hlayout hapart hf hin
  simp only [Field.num] at this
  rw [this, ofLe_toLe]

end Lib.Record
