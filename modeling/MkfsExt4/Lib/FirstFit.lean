/-
  First fit on a line of cells: runs of given lengths are laid down in order, each at the
  first place past the one before it where enough cells in a row are free.
  `Greedy.stop_le_of_fits`: no layout in the same order ends sooner. `Greedy.hits`: a run
  that was placed by the same rule from an earlier cell is met again by whoever starts later.
  `Greedy.spares_iff`: which cells it passes over, in terms of what fits before them. `Laid` is
  the weaker rule that runs follow one another on places that are allowed.
-/
import Mathlib.Tactic.Common

namespace Lib.FirstFit

/-- `len` free cells in a row, from `s` on. -/
def Clear (free : Nat → Prop) (s len : Nat) : Prop :=
  ∀ b, s ≤ b → b < s + len → free b

/-- `s` is the first cell at or after `c` that begins `len` free ones. -/
structure First (free : Nat → Prop) (c len s : Nat) : Prop where
  le : c ≤ s
  clear : Clear free s len
  least : ∀ t, c ≤ t → Clear free t len → s ≤ t

/-- First fit: runs of the given lengths, from the cell `c` to the cell `e`. -/
inductive Greedy (free : Nat → Prop) : Nat → List Nat → List Nat → Nat → Prop
  | nil (c : Nat) : Greedy free c [] [] c
  | cons {c len s : Nat} {lens starts : List Nat} {e : Nat} (first : First free c len s)
      (rest : Greedy free (s + len) lens starts e) :
      Greedy free c (len :: lens) (s :: starts) e

/-- Runs of the given lengths one behind another on allowed places, from `c` to `e`. -/
inductive Laid (allowed : Nat → Nat → Prop) : Nat → List Nat → List Nat → Nat → Prop
  | nil (c : Nat) : Laid allowed c [] [] c
  | cons {c len s : Nat} {lens starts : List Nat} {e : Nat} (le : c ≤ s) (here : allowed s len)
      (rest : Laid allowed (s + len) lens starts e) :
      Laid allowed c (len :: lens) (s :: starts) e

/-- Some layout of the runs, in order and on free cells, lies between `c` and `hi`. -/
def Fits (free : Nat → Prop) : Nat → List Nat → Nat → Prop
  | c, [], hi => c ≤ hi
  | c, len :: lens, hi => ∃ s, c ≤ s ∧ Clear free s len ∧ Fits free (s + len) lens hi

/-- As many of the runs as fit before the cell `b`, with the next one, fit only past it. -/
def Spared (free : Nat → Prop) (c : Nat) (lens : List Nat) (b : Nat) : Prop :=
  ∃ before after, lens = before ++ after ∧ Fits free c before b ∧
    ∀ len ∈ after.head?, ¬ Fits free c (before ++ [len]) (b + len)

variable {free : Nat → Prop}

theorem Clear.mono {s len len' : Nat} (h : Clear free s len) (hle : len' ≤ len) :
    Clear free s len' := by
  intro b hb hb'
  apply h b hb
  omega

theorem clear_one {s : Nat} : Clear free s 1 ↔ free s := by
  constructor
  · intro h
    exact h s (Nat.le_refl s) (Nat.lt_succ_self s)
  · intro h b hb hb'
    have hbs : b = s := by omega
    exact hbs ▸ h

theorem Fits.mono_start {c c' hi : Nat} {lens : List Nat} (h : Fits free c' lens hi)
    (hc : c ≤ c') : Fits free c lens hi := by
  cases lens with
  | nil => exact Nat.le_trans hc h
  | cons len lens =>
    obtain ⟨s, hs, hclear, hrest⟩ := h
    exact ⟨s, Nat.le_trans hc hs, hclear, hrest⟩

theorem Fits.mono_stop {c hi hi' : Nat} {lens : List Nat} (h : Fits free c lens hi)
    (hhi : hi ≤ hi') : Fits free c lens hi' := by
  induction lens generalizing c with
  | nil => exact Nat.le_trans h hhi
  | cons len lens ih =>
    obtain ⟨s, hs, hclear, hrest⟩ := h
    exact ⟨s, hs, hclear, ih hrest⟩

theorem Fits.le {c hi : Nat} {lens : List Nat} (h : Fits free c lens hi) : c ≤ hi := by
  induction lens generalizing c with
  | nil => exact h
  | cons len lens ih =>
    obtain ⟨s, hs, -, hrest⟩ := h
    have := ih hrest
    omega

theorem Fits.of_append {c hi : Nat} {lens lens' : List Nat}
    (h : Fits free c (lens ++ lens') hi) : Fits free c lens hi := by
  induction lens generalizing c with
  | nil => exact h.le
  | cons len lens ih =>
    obtain ⟨s, hs, hclear, hrest⟩ := h
    exact ⟨s, hs, hclear, ih hrest⟩

namespace Laid

variable {allowed : Nat → Nat → Prop}

theorem start_le_stop {c e : Nat} {lens starts : List Nat} (h : Laid allowed c lens starts e) :
    c ≤ e := by
  induction h with
  | nil c => exact Nat.le_refl c
  | cons le _ _ ih => omega

theorem length_eq {c e : Nat} {lens starts : List Nat} (h : Laid allowed c lens starts e) :
    starts.length = lens.length := by
  induction h with
  | nil => rfl
  | cons _ _ _ ih => simp [ih]

theorem append {c d e : Nat} {lens starts lens' starts' : List Nat}
    (h : Laid allowed c lens starts d) (h' : Laid allowed d lens' starts' e) :
    Laid allowed c (lens ++ lens') (starts ++ starts') e := by
  induction h with
  | nil => exact h'
  | cons le here _ ih => exact .cons le here (ih h')

/-- The runs follow one another. -/
theorem sorted {c e : Nat} {lens starts : List Nat} (h : Laid allowed c lens starts e) :
    (starts.zip lens).Pairwise (fun r r' => r.1 + r.2 ≤ r'.1) ∧
      ∀ r ∈ starts.zip lens, c ≤ r.1 ∧ r.1 + r.2 ≤ e := by
  induction h with
  | nil => simp
  | @cons c len s lens starts e le here rest ih =>
    obtain ⟨hpw, hbounds⟩ := ih
    have hse := rest.start_le_stop
    constructor
    · simp only [List.zip_cons_cons, List.pairwise_cons]
      exact ⟨fun r hr => (hbounds r hr).1, hpw⟩
    · intro r hr
      simp only [List.zip_cons_cons, List.mem_cons] at hr
      rcases hr with rfl | hr
      · exact ⟨le, hse⟩
      · have := hbounds r hr
        omega

theorem allowed_of_mem {c e : Nat} {lens starts : List Nat} (h : Laid allowed c lens starts e)
    {r : Nat × Nat} (hr : r ∈ starts.zip lens) : allowed r.1 r.2 := by
  induction h with
  | nil => simp at hr
  | cons _ here _ ih =>
    simp only [List.zip_cons_cons, List.mem_cons] at hr
    rcases hr with rfl | hr
    · exact here
    · exact ih hr

end Laid

namespace Greedy

/-- First fit lays its runs on free cells. -/
theorem laid {c e : Nat} {lens starts : List Nat} (h : Greedy free c lens starts e) :
    Laid (Clear free) c lens starts e := by
  induction h with
  | nil c => exact .nil c
  | cons first _ ih => exact .cons first.le first.clear ih

theorem length_eq {c e : Nat} {lens starts : List Nat} (h : Greedy free c lens starts e) :
    starts.length = lens.length := h.laid.length_eq

theorem append {c d e : Nat} {lens starts lens' starts' : List Nat}
    (h : Greedy free c lens starts d) (h' : Greedy free d lens' starts' e) :
    Greedy free c (lens ++ lens') (starts ++ starts') e := by
  induction h with
  | nil => exact h'
  | cons first _ ih => exact .cons first (ih h')

theorem fits {c e : Nat} {lens starts : List Nat} (h : Greedy free c lens starts e) :
    Fits free c lens e := by
  induction h with
  | nil c => exact Nat.le_refl c
  | cons first _ ih => exact ⟨_, first.le, first.clear, ih⟩

/-- What fits after the runs of some layout fits after those of first fit. -/
theorem fits_rest {c e hi : Nat} {lens lens' starts : List Nat}
    (h : Greedy free c lens starts e) (hfits : Fits free c (lens ++ lens') hi) :
    Fits free e lens' hi := by
  induction h with
  | nil => exact hfits
  | @cons c len s lens starts e first rest ih =>
    obtain ⟨t, hct, hclear, hrest⟩ := hfits
    have hst : s ≤ t := first.least t hct hclear
    apply ih
    exact hrest.mono_start (Nat.add_le_add_right hst len)

/-- First fit ends no later than any layout in the same order from the same cell on. -/
theorem stop_le_of_fits {c e hi : Nat} {lens starts : List Nat}
    (h : Greedy free c lens starts e) (hfits : Fits free c lens hi) : e ≤ hi := by
  rw [← List.append_nil lens] at hfits
  exact h.fits_rest hfits

/-- The runs of a first fit follow one another. -/
theorem sorted {c e : Nat} {lens starts : List Nat} (h : Greedy free c lens starts e) :
    (starts.zip lens).Pairwise (fun r r' => r.1 + r.2 ≤ r'.1) ∧
      ∀ r ∈ starts.zip lens, c ≤ r.1 ∧ r.1 + r.2 ≤ e := h.laid.sorted

theorem clear_of_mem {c e : Nat} {lens starts : List Nat} (h : Greedy free c lens starts e)
    {r : Nat × Nat} (hr : r ∈ starts.zip lens) : Clear free r.1 r.2 := h.laid.allowed_of_mem hr

/-- A run that ends before a cell leaves it to the runs after it. -/
theorem spared_cons_iff {c len s b : Nat} {lens : List Nat}
    (first : First free c len s) (hb : s + len ≤ b) :
    Spared free c (len :: lens) b ↔ Spared free (s + len) lens b := by
  have hone : Greedy free c [len] [s] (s + len) := .cons first (.nil _)
  constructor
  · rintro ⟨before, after, heq, hfits, hnext⟩
    cases before with
    | nil =>
      obtain rfl : len :: lens = after := heq
      refine absurd ⟨s, first.le, first.clear, ?_⟩ (hnext len rfl)
      show s + len ≤ b + len
      omega
    | cons len' before =>
      obtain ⟨rfl, rfl⟩ := List.cons.inj heq
      refine ⟨before, after, rfl, hone.fits_rest hfits, fun l hl hfit => hnext l hl ?_⟩
      exact ⟨s, first.le, first.clear, hfit⟩
  · rintro ⟨before, after, rfl, hfits, hnext⟩
    refine ⟨len :: before, after, rfl, ⟨s, first.le, first.clear, hfits⟩, fun l hl hfit => ?_⟩
    exact hnext l hl (hone.fits_rest hfit)

/-- A first fit passes over a cell exactly when some of its runs fit before the cell, and with
    the next one only past it. -/
theorem spares_iff {c e b : Nat} {lens starts : List Nat} (h : Greedy free c lens starts e)
    (hc : c ≤ b) : (∀ r ∈ starts.zip lens, ¬ (r.1 ≤ b ∧ b < r.1 + r.2)) ↔ Spared free c lens b := by
  induction h with
  | nil c => exact iff_of_true nofun ⟨[], [], rfl, hc, nofun⟩
  | @cons c len s lens starts e first rest ih =>
    rw [List.zip_cons_cons, List.forall_mem_cons]
    rcases Nat.lt_or_ge b (s + len) with hlt | hge
    · by_cases hs : s ≤ b
      · -- The run takes the cell.
        refine iff_of_false (fun hno => hno.1 ⟨hs, hlt⟩) ?_
        rintro ⟨before, after, heq, hfits, hnext⟩
        cases before with
        | nil =>
          obtain rfl : len :: lens = after := heq
          refine hnext len rfl ⟨s, first.le, first.clear, ?_⟩
          show s + len ≤ b + len
          omega
        | cons len' before =>
          obtain ⟨rfl, -⟩ := List.cons.inj heq
          have hone : Greedy free c [len] [s] (s + len) := .cons first (.nil _)
          have hend := (hone.fits_rest hfits).le
          omega
      · -- The run, and with it all after it, starts past the cell.
        have hpast := rest.sorted.2
        refine iff_of_true ⟨fun hin => hs hin.1, fun r hr hin => ?_⟩ ⟨[], _, rfl, hc, ?_⟩
        · have := (hpast r hr).1
          omega
        · intro l hl hfit
          obtain rfl : len = l := Option.some.inj hl
          obtain ⟨t, hct, hclear, hend⟩ := hfit
          have hst := first.least t hct hclear
          have hend : t + len ≤ b + len := hend
          omega
    · rw [ih hge, spared_cons_iff first hge]
      exact and_iff_right fun hin => by omega

/-- A first fit that starts at or before `S` and ends past it has a run that does so: the
first one to end past `S`, placed by a cursor that had not reached it. -/
theorem exists_crossing {c e S : Nat} {lens starts : List Nat}
    (h : Greedy free c lens starts e) (hc : c ≤ S) (he : S < e) :
    ∃ c' len s, c' ≤ S ∧ First free c' len s ∧ S < s + len ∧ (s, len) ∈ starts.zip lens := by
  induction h with
  | nil c => omega
  | @cons c len s lens starts e first rest ih =>
    by_cases hcross : S < s + len
    · exact ⟨c, len, s, hc, first, hcross, by simp⟩
    · obtain ⟨c', len', s', hc', hfirst, hS, hmem⟩ := ih (Nat.le_of_not_lt hcross) he
      exact ⟨c', len', s', hc', hfirst, hS, by simp [hmem]⟩

/-- A run of length `len` at `s`, first from `c` on, is met by every first fit that starts
between `c` and `s` and places a run of length `len` after runs that are no longer. -/
theorem hits {c len s : Nat} (first : First free c len s) (hlen : 0 < len)
    {shorter rest starts : List Nat} {c' e : Nat}
    (h : Greedy free c' (shorter ++ len :: rest) starts e) (hc : c ≤ c') (hs : c' ≤ s)
    (hle : ∀ x ∈ shorter, x ≤ len) :
    ∃ r ∈ starts.zip (shorter ++ len :: rest), r.1 ≤ s ∧ s < r.1 + r.2 := by
  induction shorter generalizing c' starts with
  | nil =>
    obtain - | ⟨first', -⟩ := h
    rename_i t starts
    have hts : t ≤ s := first'.least s hs first.clear
    exact ⟨(t, len), by simp, hts, by
      have hst : s ≤ t := first.least t (Nat.le_trans hc first'.le) first'.clear
      show s < t + len
      omega⟩
  | cons x shorter ih =>
    obtain - | ⟨first', rest'⟩ := h
    rename_i t starts
    have hxlen : x ≤ len := hle x (by simp)
    have hts : t ≤ s := first'.least s hs (first.clear.mono hxlen)
    by_cases hmeet : s < t + x
    · exact ⟨(t, x), by simp, hts, hmeet⟩
    · have hct := first'.le
      obtain ⟨r, hr, hrs⟩ := ih rest' (by omega) (by omega)
        (fun y hy => hle y (List.mem_cons_of_mem x hy))
      exact ⟨r, by simp [hr], hrs⟩

end Greedy

end Lib.FirstFit
