/-
  What the options of a comparison choose (`src/compare.rs`).

  The options decide where a comparison looks (`all_groups`, `walk_directories`) and which of what
  it finds is told (`include_identity`, `include_incidental`, `limit`). The second kind never
  changes what is found: a comparison tells the part that its options select of what the comparison
  for everything at the same places tells (`compare_selects`). And a filesystem compared with itself
  has nothing to tell (`compare_self`).
-/
import MkfsExt4.Compare.Ends
import MkfsExt4.Compare.Trees

namespace MkfsExt4.Compare

open Lib.Hoare Lib.Loop Filesystem

/-- The same places, for everything. -/
def CompareOptions.full (options : CompareOptions) : CompareOptions :=
  { options with includeIdentity := true, includeIncidental := true, limit := 0 }

/-- What the options select of a report. -/
def CompareOptions.select (options : CompareOptions) (report : ComparisonReport) :
    ComparisonReport :=
  let wanted := report.differences.filter fun d => options.wants d.significance
  if options.limit = 0 then { differences := wanted }
  else { differences := wanted.take options.limit, truncated := options.limit < wanted.length }

variable (options : CompareOptions) (left right : Filesystem)

/-! ## Reports -/

theorem push_select (report : ComparisonReport) (d : Difference) :
    (options.select report).push options d = options.select (report.push options.full d) := by
  have hfull : report.push options.full d =
      { report with differences := report.differences ++ [d] } := by
    have hwants : options.full.wants d.significance = true := by cases d.significance <;> rfl
    rw [ComparisonReport.push, hwants, if_neg (by decide), if_neg fun h => absurd h.1 (Nat.lt_irrefl 0)]
  rw [hfull, ComparisonReport.push]
  unfold CompareOptions.select
  dsimp only
  rw [List.filter_append]
  cases hw : options.wants d.significance with
  | false =>
    have hnone : [d].filter (fun d => options.wants d.significance) = [] :=
      List.filter_eq_nil_iff.mpr (List.forall_mem_singleton.mpr (by rw [hw]; decide))
    rw [hnone, List.append_nil]
    rfl
  | true =>
    have hone : [d].filter (fun d => options.wants d.significance) = [d] :=
      List.filter_eq_self.mpr (List.forall_mem_singleton.mpr hw)
    rw [hone, if_neg (by decide)]
    generalize report.differences.filter (fun d => options.wants d.significance) = wanted
    by_cases hl : options.limit = 0
    · rw [if_pos hl, if_pos hl, if_neg fun h => absurd h.1 (by omega)]
    · rw [if_neg hl, if_neg hl]
      dsimp only
      rw [List.length_take, List.length_append, List.length_singleton]
      by_cases hfar : options.limit ≤ wanted.length
      · rw [if_pos ⟨Nat.pos_of_ne_zero hl, by omega⟩, List.take_append_of_le_length hfar,
          decide_eq_true (Nat.lt_succ_of_le hfar)]
      · rw [if_neg fun h => absurd h.2 (by omega), List.take_of_length_le (by omega),
          List.take_of_length_le (by rw [List.length_append, List.length_singleton]; omega),
          decide_eq_false (by omega), decide_eq_false (by omega)]

theorem pushIf_select (report : ComparisonReport) (found : Bool) (d : Difference) :
    (options.select report).pushIf options found d =
      options.select (report.pushIf options.full found d) := by
  cases found with
  | false => rfl
  | true => exact push_select options report d

/-- A row of comparisons selects where each of them does. -/
theorem foldl_select {α : Type} {f f' : ComparisonReport → α → ComparisonReport}
    (h : ∀ report x, f' (options.select report) x = options.select (f report x)) (xs : List α)
    (report : ComparisonReport) :
    xs.foldl f' (options.select report) = options.select (xs.foldl f report) :=
  List.foldl_hom options.select h

theorem pushMissing_select (report : ComparisonReport) (area : Area) (names others : List String)
    (l r : String) : (options.select report).pushMissing options area names others l r =
      options.select (report.pushMissing options.full area names others l r) :=
  foldl_select options (fun _ _ => pushIf_select ..) names report

theorem select_empty : options.select {} = {} := by
  unfold CompareOptions.select
  split
  · rfl
  · dsimp only
    rw [List.filter_nil, List.take_nil, List.length_nil, decide_eq_false (Nat.not_lt_zero _)]

/-! ## Before the directories -/

theorem compareFeatures_select (l r : Superblock) (report : ComparisonReport) :
    compareFeatures l r options (options.select report) =
      options.select (compareFeatures l r options.full report) := by
  unfold compareFeatures
  dsimp only
  rw [pushMissing_select, pushMissing_select]

theorem compareSuperblock_select (l r : Superblock) (report : ComparisonReport) :
    compareSuperblock l r options (options.select report) =
      options.select (compareSuperblock l r options.full report) := by
  unfold compareSuperblock
  dsimp only
  rw [foldl_select options (fun _ _ => pushIf_select ..)]
  simp only [pushIf_select]

theorem compareGroupDescs_select (report : ComparisonReport) :
    compareGroupDescs left right options (options.select report) =
      options.select (compareGroupDescs left right options.full report) := by
  unfold compareGroupDescs
  dsimp only
  rw [pushIf_select]
  refine foldl_select options (fun report pair => ?_) _ _
  exact foldl_select options (fun _ _ => pushIf_select ..) descFields report

theorem compareInode_select (inum : Nat) (l r : Inode) (report : ComparisonReport) :
    compareInode inum l r options (options.select report) =
      options.select (compareInode inum l r options.full report) := by
  unfold compareInode
  dsimp only
  simp only [pushIf_select]

theorem map_bind {ε α β γ : Type} (x : Except ε α) (f : α → Except ε β) (g : β → γ) :
    (x >>= f).map g = x >>= fun a => (f a).map g := by
  cases x <;> rfl

theorem compareInodes_select (inums : List Nat) (report : ComparisonReport) :
    compareInodes left right options inums (options.select report) =
      (compareInodes left right options.full inums report).map options.select := by
  induction inums generalizing report with
  | nil => rfl
  | cons inum inums ih =>
    rw [compareInodes, compareInodes]
    split
    · rfl
    · rw [map_bind]
      refine congrArg (left.readInode inum >>= ·) (funext fun l => ?_)
      rw [map_bind]
      refine congrArg (right.readInode inum >>= ·) (funext fun r => ?_)
      rw [compareInode_select, ih]

theorem compareHead_select : compareHead left right options =
    (compareHead left right options.full).map options.select := by
  unfold compareHead compareReservedInodes
  dsimp only
  rw [← compareInodes_select, ← compareGroupDescs_select, ← compareSuperblock_select,
    ← compareFeatures_select, select_empty]

/-! ## The directories -/

/-- What the options select of a report on the way. -/
def selected (st : ComparisonReport × List Pair) : ComparisonReport × List Pair :=
  (options.select st.1, st.2)

theorem foldlM_map {ε α β γ : Type} {f : β → α → Except ε β} {f' : γ → α → Except ε γ} {g : β → γ}
    (h : ∀ b x, f' (g b) x = (f b x).map g) (xs : List α) (b : β) :
    xs.foldlM f' (g b) = (xs.foldlM f b).map g := by
  induction xs generalizing b with
  | nil => rfl
  | cons x xs ih =>
    rw [List.foldlM_cons, List.foldlM_cons, h, map_bind]
    cases f b x with
    | error e => rfl
    | ok b' => exact ih b'

theorem descend_select (path : String) (lEntries rEntries : List DirEntry)
    (st : ComparisonReport × List Pair) (name : String) :
    descend left right options path lEntries rEntries (selected options st) name =
      (descend left right options.full path lEntries rEntries st name).map (selected options) := by
  unfold descend
  split
  · dsimp only
    rw [map_bind]
    refine congrArg (left.readInode _ >>= ·) (funext fun l => ?_)
    rw [map_bind]
    refine congrArg (right.readInode _ >>= ·) (funext fun r => ?_)
    split
    · rw [selected, push_select]
      rfl
    · split <;> rfl
  · rfl

theorem visit_select (pair : Pair) (report : ComparisonReport) :
    visit left right options pair (options.select report) =
      (visit left right options.full pair report).map (selected options) := by
  unfold visit
  rw [map_bind]
  refine congrArg (left.readInode pair.left >>= ·) (funext fun l => ?_)
  rw [map_bind]
  refine congrArg (right.readInode pair.right >>= ·) (funext fun r => ?_)
  split
  · rfl
  · rw [map_bind]
    refine congrArg (left.readDir l >>= ·) (funext fun lEntries => ?_)
    rw [map_bind]
    refine congrArg (right.readDir r >>= ·) (funext fun rEntries => ?_)
    dsimp only
    rw [pushMissing_select, pushMissing_select]
    exact foldlM_map (fun st name => descend_select options left right pair.path _ _ st name) _ (_, [])

theorem walkTurn_select (state : List Pair × ComparisonReport) :
    walkTurn left right options (state.1, options.select state.2) =
      (walkTurn left right options.full state).map
        (fun s => (s.1, options.select s.2)) (Except.map options.select) := by
  obtain ⟨queue, report⟩ := state
  cases queue with
  | nil => rfl
  | cons pair queue =>
    dsimp only
    rw [walkTurn, walkTurn, visit_select]
    cases visit left right options.full pair report <;> rfl

/-- A comparison ends exactly when the one for everything at the same places does, in the same
error, or in a report of which it tells what its options select. -/
theorem compare_selects {result : Except Failure ComparisonReport} :
    CompareEnds left right options result ↔ ∃ all, CompareEnds left right options.full all ∧
      all.map options.select = result := by
  unfold CompareEnds
  rw [compareHead_select]
  cases compareHead left right options.full with
  | error e =>
    constructor
    · exact fun h => ⟨.error e, rfl, h.symm⟩
    · rintro ⟨all, rfl, h⟩
      exact h.symm
  | ok report =>
    change (if options.walkDirectories = true
        then Ends (walkTurn left right options) ([rootPair], options.select report) result
        else result = .ok (options.select report)) ↔
      ∃ all, (if options.walkDirectories = true
        then Ends (walkTurn left right options.full) ([rootPair], report) all
        else all = .ok report) ∧ all.map options.select = result
    cases options.walkDirectories with
    | true =>
      simp only [if_true]
      exact ends_map_iff (s := ([rootPair], report)) (walkTurn_select options left right)
    | false =>
      constructor
      · exact fun h => ⟨.ok report, rfl, h.symm⟩
      · rintro ⟨all, rfl, h⟩
        exact h.symm

/-! ## A filesystem and itself -/

section Self

variable (fs : Filesystem) {report : ComparisonReport}

theorem foldl_id {α β : Type} {f : β → α → β} {b : β} {xs : List α} (h : ∀ x ∈ xs, f b x = b) :
    xs.foldl f b = b := by
  induction xs with
  | nil => rfl
  | cons x xs ih =>
    rw [List.foldl_cons, h x List.mem_cons_self]
    exact ih fun y hy => h y (List.mem_cons_of_mem x hy)

theorem pushMissing_self {area : Area} {names others : List String} {l r : String}
    (h : ∀ name ∈ names, name ∈ others) :
    report.pushMissing options area names others l r = report := by
  refine foldl_id fun name hname => ?_
  rw [List.contains_iff_mem.mpr (h name hname)]
  rfl

theorem pushIf_same {α : Type} [BEq α] [LawfulBEq α] (a : α) (d : Difference) :
    report.pushIf options (a != a) d = report := by
  rw [bne_self_eq_false]
  rfl

theorem compareInodes_self {inums : List Nat} {report' : ComparisonReport}
    (h : compareInodes fs fs options inums report = .ok report') : report' = report := by
  induction inums with
  | nil => exact (Except.ok.inj h).symm
  | cons inum inums ih =>
    rw [compareInodes] at h
    split at h
    · exact (Except.ok.inj h).symm
    · obtain ⟨l, hl, h⟩ := bind_ok h
      obtain ⟨r, hr, h⟩ := bind_ok h
      obtain rfl : l = r := Except.ok.inj (hl.symm.trans hr)
      refine ih ?_
      rw [← h]
      unfold compareInode
      simp only [bne_self_eq_false, Bool.or_self]
      rfl

theorem compareHead_self (h : compareHead fs fs options = .ok report) : report = {} := by
  have hsuper : compareSuperblock fs.superblock fs.superblock options
      (compareFeatures fs.superblock fs.superblock options {}) = {} := by
    unfold compareSuperblock compareFeatures
    dsimp only
    rw [pushMissing_self options fun name hname => List.mem_of_mem_filter hname,
      pushMissing_self options fun name hname => List.mem_of_mem_filter hname,
      foldl_id fun field _ => pushIf_same options (field.get fs.superblock) _]
    simp only [pushIf_same]
  have hdescs : compareGroupDescs fs fs options {} = {} := by
    unfold compareGroupDescs
    dsimp only
    rw [pushIf_same]
    refine foldl_id fun pair hpair => ?_
    have hzip : pair.1 ∈ fs.groupDescs.zip fs.groupDescs :=
      List.mem_of_mem_take (List.fst_mem_of_mem_zipIdx hpair)
    have hsame : pair.1.1 = pair.1.2 := by
      rw [List.zip_eq_zipWith, List.zipWith_self] at hzip
      obtain ⟨d, -, hd⟩ := List.mem_map.mp hzip
      rw [← hd]
    rw [hsame]
    exact foldl_id fun field _ => pushIf_same options (field.get pair.1.2) _
  unfold compareHead compareReservedInodes at h
  dsimp only at h
  rw [hsuper, hdescs] at h
  exact compareInodes_self options fs h

/-- Under a name both have the same entry, which is no difference. -/
theorem descend_self {path name : String} {entries : List DirEntry}
    {st st' : ComparisonReport × List Pair}
    (h : descend fs fs options path entries entries st name = .ok st') :
    st'.1 = st.1 ∧ ((∀ p ∈ st.2, p.left = p.right) → ∀ p ∈ st'.2, p.left = p.right) := by
  unfold descend at h
  split at h
  · next l r hl hr =>
    obtain rfl : l = r := Option.some.inj (hl.symm.trans hr)
    obtain ⟨lTarget, hl, h⟩ := bind_ok h
    obtain ⟨rTarget, hr, h⟩ := bind_ok h
    obtain rfl : lTarget = rTarget := Except.ok.inj (hl.symm.trans hr)
    rw [if_neg (not_not_intro rfl)] at h
    split at h
    · obtain rfl := Except.ok.inj h
      refine ⟨rfl, fun hsame p hp => ?_⟩
      rcases List.mem_append.mp hp with hp | hp
      · exact hsame p hp
      · rw [List.mem_singleton.mp hp]
    · obtain rfl := Except.ok.inj h
      exact ⟨rfl, id⟩
  · obtain rfl := Except.ok.inj h
    exact ⟨rfl, id⟩

/-- A turn at one directory tells nothing, and goes on at pairs of one directory. -/
theorem visit_self {pair : Pair} {added : List Pair} {report' : ComparisonReport}
    (hpair : pair.left = pair.right) (h : visit fs fs options pair report = .ok (report', added)) :
    report' = report ∧ ∀ p ∈ added, p.left = p.right := by
  unfold visit at h
  rw [hpair] at h
  obtain ⟨l, hl, h⟩ := bind_ok h
  obtain ⟨r, hr, h⟩ := bind_ok h
  obtain rfl : l = r := Except.ok.inj (hl.symm.trans hr)
  split at h
  · obtain ⟨rfl, rfl⟩ := Prod.mk.inj (Except.ok.inj h)
    exact ⟨rfl, fun p hp => absurd hp List.not_mem_nil⟩
  · obtain ⟨lEntries, hl, h⟩ := bind_ok h
    obtain ⟨rEntries, hr, h⟩ := bind_ok h
    obtain rfl : lEntries = rEntries := Except.ok.inj (hl.symm.trans hr)
    dsimp only at h
    rw [pushMissing_self options fun name hname => hname,
      pushMissing_self options fun name hname => hname] at h
    have hrun := foldlM_ok (fun _ st => st.1 = report ∧ ∀ p ∈ st.2, p.left = p.right)
      (fun _ name st st' hst hstep => by
        obtain ⟨hreport, hsame⟩ := descend_self options fs hstep
        exact ⟨hreport.trans hst.1, hsame hst.2⟩)
      ⟨rfl, fun p hp => absurd hp List.not_mem_nil⟩ h
    exact hrun

/-- From pairs of one directory on, the walk tells nothing. -/
theorem walk_self {state : List Pair × ComparisonReport} {result : Except Failure ComparisonReport}
    (h : Ends (walkTurn fs fs options) state result) (hsame : ∀ p ∈ state.1, p.left = p.right)
    (hok : result = .ok report) : report = state.2 := by
  induction h with
  | @stop state r hstop =>
    obtain ⟨queue, told⟩ := state
    subst hok
    cases queue with
    | nil => exact (Except.ok.inj (Sum.inr.inj hstop)).symm
    | cons pair queue =>
      rw [walkTurn] at hstop
      split at hstop
      · cases Sum.inr.inj hstop
      · cases hstop
  | @turn state next r hturn _ ih =>
    obtain ⟨queue, told⟩ := state
    cases queue with
    | nil => cases hturn
    | cons pair queue =>
      rw [walkTurn] at hturn
      split at hturn
      · cases hturn
      · next told' added hvisit =>
        obtain ⟨hpair, hrest⟩ := List.forall_mem_cons.mp hsame
        obtain ⟨rfl, hadded⟩ := visit_self options fs hpair hvisit
        obtain rfl := Sum.inl.inj hturn
        refine ih (fun p hp => ?_) hok
        rcases List.mem_append.mp hp with hp | hp
        · exact hadded p (List.mem_reverse.mp hp)
        · exact hrest p hp

/-- Whatever its options, a comparison of a filesystem with itself that returns reports nothing. -/
theorem compare_self (h : CompareEnds fs fs options (.ok report)) : report = {} := by
  unfold CompareEnds at h
  split at h
  · cases h
  · next told hhead =>
    obtain rfl := compareHead_self options fs hhead
    split at h
    · exact walk_self options fs h (List.forall_mem_singleton.mpr rfl) rfl
    · exact Except.ok.inj h

end Self

/-- The image of one file has nothing to tell of itself, its directories included. -/
theorem nameImage_self : ∃ fs report, openOn (nameImage 0x61) = .ok fs ∧
    CompareEnds fs fs .everything (.ok report) ∧ report = {} := by
  obtain ⟨fs, hopen, hfs⟩ := nameImage_holds 0x61 (by decide)
  obtain ⟨told, hhead⟩ :=
    (compareHead_ok_iff fs fs .everything).mpr fun inum => hfs.readable hfs
  have hlegible := hfs.legible hfs fun _ => rfl
  have hpast : WalksPast fs fs .everything rootPair :=
    walksPast_of_treed rfl hfs.treed hfs.treed hfs.root hfs.root hlegible "/"
  obtain ⟨report, hwalk, -⟩ := hpast [] told
  have hends : CompareEnds fs fs .everything (.ok report) := by
    rw [CompareEnds, hhead]
    exact hwalk _ (.stop rfl)
  exact ⟨fs, report, hopen, hends, compare_self _ fs hends⟩

end MkfsExt4.Compare
