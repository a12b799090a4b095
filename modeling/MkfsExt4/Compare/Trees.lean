/-
  What the comparison of two directory trees finds (`src/compare.rs`, `compare_directories`).

  `HasPath` says which paths a tree has, as the bytes of their names, and which of them are
  directories. The walk compares names as text that bytes may not survive. Over trees in which
  each directory has its names once, `compare` returns, and it reports a difference in the
  directories exactly when the two sets of paths differ, as long as no two names of directories
  at one path are the same text (`compare_trees_iff`). Names that are hide a difference
  (`text_hides_difference`).
-/
import MkfsExt4.Compare.Ends

namespace MkfsExt4.Compare

open Lib.Utf8 Lib.Hoare Lib.Loop Lib.Endian Filesystem
open Fsck (dotName dotdotName)

/-! ## Trees and their paths -/

/-- An entry other than `.` and `..`. -/
def Proper (entry : DirEntry) : Prop := entry.name ≠ dotName ∧ entry.name ≠ dotdotName

instance : DecidablePred Proper :=
  fun entry => inferInstanceAs (Decidable (entry.name ≠ dotName ∧ entry.name ≠ dotdotName))

/-- The inode is a directory of these entries. -/
def DirAt (fs : Filesystem) (inum : Nat) (entries : List DirEntry) : Prop :=
  ∃ inode, fs.readInode inum = .ok inode ∧ inode.isDir = true ∧ fs.readDir inode = .ok entries

/-- The inode is not a directory. -/
def FileAt (fs : Filesystem) (inum : Nat) : Prop :=
  ∃ inode, fs.readInode inum = .ok inode ∧ inode.isDir = false

/-- No name twice. -/
def Distinct (entries : List DirEntry) : Prop :=
  ((entries.filter Proper).map DirEntry.name).Nodup

/-- A tree of readable inodes, each directory of which has its names once. -/
inductive Treed (fs : Filesystem) : Nat → Prop
  | file {inum : Nat} (h : FileAt fs inum) : Treed fs inum
  | dir {inum : Nat} {entries : List DirEntry} (h : DirAt fs inum entries)
      (distinct : Distinct entries) (below : ∀ e ∈ entries, Proper e → Treed fs e.inode) :
      Treed fs inum

/-- The names of `path` lead from one inode to another. -/
inductive LeadsTo (fs : Filesystem) : Nat → List (List UInt8) → Nat → Prop
  | here (inum : Nat) : LeadsTo fs inum [] inum
  | child {inum target : Nat} {entries : List DirEntry} {e : DirEntry} {path : List (List UInt8)}
      (h : DirAt fs inum entries) (he : e ∈ entries) (hp : Proper e)
      (rest : LeadsTo fs e.inode path target) : LeadsTo fs inum (e.name :: path) target

/-- The tree has this path, to a directory or to something else. -/
def HasPath (fs : Filesystem) (inum : Nat) (path : List (List UInt8)) (isDir : Bool) : Prop :=
  ∃ target inode, LeadsTo fs inum path target ∧ fs.readInode target = .ok inode ∧
    inode.isDir = isDir

section Paths

variable {fs : Filesystem} {inum : Nat} {entries : List DirEntry}

theorem DirAt.unique {entries' : List DirEntry} (h : DirAt fs inum entries)
    (h' : DirAt fs inum entries') : entries = entries' := by
  obtain ⟨inode, hinode, -, hentries⟩ := h
  obtain ⟨inode', hinode', -, hentries'⟩ := h'
  cases hinode.symm.trans hinode'
  exact Except.ok.inj (hentries.symm.trans hentries')

theorem DirAt.not_file (h : DirAt fs inum entries) : ¬FileAt fs inum := by
  rintro ⟨inode', hinode', hfile⟩
  obtain ⟨inode, hinode, hdir, -⟩ := h
  cases hinode.symm.trans hinode'
  rw [hdir] at hfile
  cases hfile

theorem hasPath_nil_of_dir (h : DirAt fs inum entries) {k : Bool} :
    HasPath fs inum [] k ↔ k = true := by
  obtain ⟨inode, hinode, hdir, -⟩ := h
  constructor
  · rintro ⟨target, inode', hlead, hinode', rfl⟩
    cases hlead
    cases hinode.symm.trans hinode'
    exact hdir
  · rintro rfl
    exact ⟨inum, inode, .here inum, hinode, hdir⟩

theorem hasPath_of_file (h : FileAt fs inum) {path : List (List UInt8)} {k : Bool} :
    HasPath fs inum path k ↔ path = [] ∧ k = false := by
  constructor
  · rintro ⟨target, inode', hlead, hinode', rfl⟩
    cases hlead with
    | here =>
      obtain ⟨inode, hinode, hfile⟩ := h
      cases hinode.symm.trans hinode'
      exact ⟨rfl, hfile⟩
    | child hdir => exact absurd h hdir.not_file
  · rintro ⟨rfl, rfl⟩
    obtain ⟨inode, hinode, hfile⟩ := h
    exact ⟨inum, inode, .here inum, hinode, hfile⟩

theorem hasPath_cons (h : DirAt fs inum entries) {name : List UInt8} {path : List (List UInt8)}
    {k : Bool} : HasPath fs inum (name :: path) k ↔
      ∃ e ∈ entries, Proper e ∧ e.name = name ∧ HasPath fs e.inode path k := by
  constructor
  · rintro ⟨target, inode, hlead, hinode⟩
    cases hlead with
    | child h' he hp rest =>
      rw [h.unique h']
      exact ⟨_, he, hp, rfl, target, inode, rest, hinode⟩
  · rintro ⟨e, he, hp, rfl, target, inode, hlead, hinode⟩
    exact ⟨target, inode, .child h he hp hlead, hinode⟩

/-- A tree has its root as a path. -/
theorem Treed.hasPath_nil (h : Treed fs inum) : ∃ k, HasPath fs inum [] k := by
  cases h with
  | file h => exact ⟨false, (hasPath_of_file h).mpr ⟨rfl, rfl⟩⟩
  | dir h => exact ⟨true, (hasPath_nil_of_dir h).mpr rfl⟩

theorem Distinct.eq_of_name (h : Distinct entries) {e e' : DirEntry} (he : e ∈ entries)
    (hp : Proper e) (he' : e' ∈ entries) (hp' : Proper e') (hname : e.name = e'.name) : e = e' :=
  List.inj_on_of_nodup_map h (List.mem_filter.mpr ⟨he, decide_eq_true hp⟩)
    (List.mem_filter.mpr ⟨he', decide_eq_true hp'⟩) hname

end Paths

/-! ## Where two trees differ -/

/-- The trees below two inodes do not have the same paths. -/
def Differ (left right : Filesystem) (a b : Nat) : Prop :=
  ∃ path k, ¬(HasPath left a path k ↔ HasPath right b path k)

section Differ

variable {left right : Filesystem} {a b : Nat} {ls rs : List DirEntry}

theorem not_differ_files (ha : FileAt left a) (hb : FileAt right b) : ¬Differ left right a b := by
  rintro ⟨path, k, h⟩
  rw [hasPath_of_file ha, hasPath_of_file hb] at h
  exact h Iff.rfl

theorem differ_of_kinds (ha : DirAt left a ls) (hb : FileAt right b) : Differ left right a b := by
  refine ⟨[], true, fun h => ?_⟩
  have hfile := h.mp ((hasPath_nil_of_dir ha).mpr rfl)
  cases ((hasPath_of_file hb).mp hfile).2

theorem differ_of_kinds' (ha : FileAt left a) (hb : DirAt right b rs) : Differ left right a b := by
  refine ⟨[], true, fun h => ?_⟩
  have hfile := h.mpr ((hasPath_nil_of_dir hb).mpr rfl)
  cases ((hasPath_of_file ha).mp hfile).2

/-- Two directories differ in a name that one has alone, or below a name that both have. -/
theorem differ_dirs_iff (ha : DirAt left a ls) (hb : DirAt right b rs) (hls : Distinct ls)
    (hrs : Distinct rs) (tl : ∀ e ∈ ls, Proper e → Treed left e.inode)
    (tr : ∀ e ∈ rs, Proper e → Treed right e.inode) :
    Differ left right a b ↔
      (∃ e ∈ ls, Proper e ∧ ∀ e' ∈ rs, Proper e' → e'.name ≠ e.name) ∨
        (∃ e' ∈ rs, Proper e' ∧ ∀ e ∈ ls, Proper e → e.name ≠ e'.name) ∨
          ∃ e ∈ ls, ∃ e' ∈ rs, Proper e ∧ Proper e' ∧ e.name = e'.name ∧
            Differ left right e.inode e'.inode := by
  constructor
  · rintro ⟨path, k, h⟩
    by_contra hnone
    simp only [not_or, not_exists, not_and, not_forall, not_not] at hnone
    obtain ⟨hl, hr, hbelow⟩ := hnone
    refine h ?_
    cases path with
    | nil => rw [hasPath_nil_of_dir ha, hasPath_nil_of_dir hb]
    | cons name path =>
      rw [hasPath_cons ha, hasPath_cons hb]
      constructor
      · rintro ⟨e, he, hp, rfl, hpath⟩
        obtain ⟨e', he', hp', hname⟩ := hl e he hp
        have hsame := hbelow e he e' he' hp hp' hname.symm
        refine ⟨e', he', hp', hname, ?_⟩
        by_contra hno
        exact hsame ⟨path, k, fun hiff => hno (hiff.mp hpath)⟩
      · rintro ⟨e', he', hp', rfl, hpath⟩
        obtain ⟨e, he, hp, hname⟩ := hr e' he' hp'
        have hsame := hbelow e he e' he' hp hp' hname
        refine ⟨e, he, hp, hname, ?_⟩
        by_contra hno
        exact hsame ⟨path, k, fun hiff => hno (hiff.mpr hpath)⟩
  · rintro (⟨e, he, hp, hnone⟩ | ⟨e', he', hp', hnone⟩ | ⟨e, he, e', he', hp, hp', hname, h⟩)
    · obtain ⟨k, hk⟩ := (tl e he hp).hasPath_nil
      refine ⟨[e.name], k, fun h => ?_⟩
      obtain ⟨e', he', hp', hname, -⟩ :=
        (hasPath_cons hb).mp (h.mp ((hasPath_cons ha).mpr ⟨e, he, hp, rfl, hk⟩))
      exact hnone e' he' hp' hname
    · obtain ⟨k, hk⟩ := (tr e' he' hp').hasPath_nil
      refine ⟨[e'.name], k, fun h => ?_⟩
      obtain ⟨e, he, hp, hname, -⟩ :=
        (hasPath_cons ha).mp (h.mpr ((hasPath_cons hb).mpr ⟨e', he', hp', rfl, hk⟩))
      exact hnone e he hp hname
    · obtain ⟨path, k, hdiff⟩ := h
      refine ⟨e.name :: path, k, fun hiff => hdiff ?_⟩
      rw [hasPath_cons ha, hasPath_cons hb] at hiff
      constructor
      · intro hpath
        obtain ⟨o, ho, hpo, hon, hpath'⟩ := hiff.mp ⟨e, he, hp, rfl, hpath⟩
        rwa [hrs.eq_of_name ho hpo he' hp' (hon.trans hname)] at hpath'
      · intro hpath
        obtain ⟨o, ho, hpo, hon, hpath'⟩ := hiff.mpr ⟨e', he', hp', hname.symm, hpath⟩
        rwa [hls.eq_of_name ho hpo he hp hon] at hpath'

end Differ

/-! ## Names as text -/

theorem nameString_eq_iff {e : DirEntry} {s : List Char} (hs : '\uFFFD' ∉ s) :
    e.nameString = String.ofList s ↔ e.name = utf8 s := by
  rw [DirEntry.nameString, String.ofList_inj]
  constructor
  · intro h
    rw [← h] at hs ⊢
    exact (utf8_fromUtf8Lossy hs).symm
  · intro h
    rw [h, fromUtf8Lossy_utf8]

/-- A name that reads as `.` or `..` is that name. -/
theorem proper_iff (e : DirEntry) : (e.nameString ≠ "." ∧ e.nameString ≠ "..") ↔ Proper e := by
  have hdot : e.nameString = "." ↔ e.name = dotName := nameString_eq_iff (s := ['.']) (by decide)
  have hdotdot : e.nameString = ".." ↔ e.name = dotdotName :=
    nameString_eq_iff (s := ['.', '.']) (by decide)
  rw [Proper, Ne, Ne, hdot, hdotdot]

theorem mem_dirNames {entries : List DirEntry} {name : String} :
    name ∈ dirNames entries ↔ ∃ e ∈ entries, Proper e ∧ e.nameString = name := by
  rw [dirNames, List.mem_filter, List.mem_map]
  simp only [decide_eq_true_eq]
  constructor
  · rintro ⟨⟨e, he, rfl⟩, hne⟩
    exact ⟨e, he, (proper_iff e).mp hne, rfl⟩
  · rintro ⟨e, he, hp, rfl⟩
    exact ⟨⟨e, he, rfl⟩, (proper_iff e).mpr hp⟩

/-- No two names of the two directories are the same text. -/
def Legible (ls rs : List DirEntry) : Prop :=
  ∀ e ∈ ls ++ rs, Proper e → ∀ e' ∈ ls ++ rs, Proper e' → e.nameString = e'.nameString →
    e.name = e'.name

/-- The first entry with the text of `e` is `e`. -/
theorem find_eq {entries : List DirEntry} (hd : Distinct entries)
    (hlegible : ∀ e ∈ entries, Proper e → ∀ e' ∈ entries, Proper e' →
      e.nameString = e'.nameString → e.name = e'.name)
    {e : DirEntry} (he : e ∈ entries) (hp : Proper e) :
    (entries.find? fun o => o.nameString == e.nameString) = some e := by
  cases hfind : entries.find? fun o => o.nameString == e.nameString with
  | none => exact absurd (beq_self_eq_true e.nameString) (List.find?_eq_none.mp hfind e he)
  | some o =>
    have htext : o.nameString = e.nameString := by simpa using List.find?_some hfind
    have hpo : Proper o := (proper_iff o).mp (by rw [htext]; exact (proper_iff e).mpr hp)
    have ho := List.mem_of_find?_eq_some hfind
    rw [hd.eq_of_name ho hpo he hp (hlegible o ho hpo e he hp htext)]

/-! ## What is reported of the directories -/

/-- The report has a difference in a directory. -/
def HasDirDiff (report : ComparisonReport) : Prop :=
  ∃ d ∈ report.differences, ∃ path, d.area = .directory path

section Report

variable {report : ComparisonReport} {options : CompareOptions}

theorem hasDirDiff_push (hl : options.limit = 0) {d : Difference} (hs : d.significance = .structural)
    {path : String} (ha : d.area = .directory path) : HasDirDiff (report.push options d) := by
  have hw : options.wants d.significance = true := by
    rw [hs]
    rfl
  rw [HasDirDiff, ComparisonReport.push_differences hw hl]
  exact ⟨d, List.mem_append_right _ List.mem_cons_self, path, ha⟩

theorem hasDirDiff_pushMissing_iff (hl : options.limit = 0) {path : String}
    {names others : List String} {l r : String} :
    HasDirDiff (report.pushMissing options (.directory path) names others l r) ↔
      HasDirDiff report ∨ ∃ name ∈ names, name ∉ others := by
  unfold ComparisonReport.pushMissing
  induction names generalizing report with
  | nil => simp
  | cons name names ih =>
    rw [List.foldl_cons, ih]
    by_cases hmem : name ∈ others
    · simp [ComparisonReport.pushIf, hmem]
    · have hcontains : (!others.contains name) = true := by simpa using hmem
      rw [hcontains]
      have hpush : HasDirDiff (report.push options
          ⟨.directory path, name, l, r, .structural⟩) := hasDirDiff_push hl rfl rfl
      exact ⟨fun _ => .inr ⟨name, List.mem_cons_self, hmem⟩, fun _ => .inl hpush⟩

end Report

/-! ## One pair of directories -/

/-- Whether an inode is a directory. -/
def isDirAt (fs : Filesystem) (inum : Nat) : Bool := (fs.readInode inum).toOption.any Inode.isDir

section Visit

variable {left right : Filesystem} {options : CompareOptions} {path : String}
  {ls rs : List DirEntry}

/-- The entries that the walk takes for one name. -/
def Matched (ls rs : List DirEntry) (name : String) (e e' : DirEntry) : Prop :=
  (ls.find? fun o => o.nameString == name) = some e ∧
    (rs.find? fun o => o.nameString == name) = some e'

variable (path) in
/-- One name that both have: another kind of inode is reported, two directories are queued. -/
theorem descend_spec (hl : options.limit = 0) {name : String} {e e' : DirEntry}
    (hm : Matched ls rs name e e') (he : (left.readInode e.inode).toBool = true)
    (he' : (right.readInode e'.inode).toBool = true) (st : ComparisonReport × List Pair) :
    ∃ st', descend left right options path ls rs st name = .ok st' ∧
      (HasDirDiff st'.1 ↔
        HasDirDiff st.1 ∨ isDirAt left e.inode ≠ isDirAt right e'.inode) ∧
      ∀ c, c ∈ st'.2.map Pair.key ↔ c ∈ st.2.map Pair.key ∨
        (isDirAt left e.inode = true ∧ isDirAt right e'.inode = true ∧
          c = (e.inode, e'.inode)) := by
  obtain ⟨l, hread⟩ := toBool_iff.mp he
  obtain ⟨r, hread'⟩ := toBool_iff.mp he'
  have hdir : isDirAt left e.inode = l.isDir := by rw [isDirAt, hread]; rfl
  have hdir' : isDirAt right e'.inode = r.isDir := by rw [isDirAt, hread']; rfl
  unfold descend
  rw [hm.1, hm.2, hdir, hdir']
  dsimp only
  rw [hread, hread', bind_of_ok rfl, bind_of_ok rfl]
  by_cases hne : l.isDir ≠ r.isDir
  · rw [if_pos hne]
    refine ⟨_, rfl, ?_, fun c => ?_⟩
    · exact ⟨fun _ => .inr hne, fun _ => hasDirDiff_push hl rfl rfl⟩
    · refine ⟨.inl, ?_⟩
      rintro (h | ⟨h1, h2, -⟩)
      · exact h
      · exact absurd (h1.trans h2.symm) hne
  · rw [if_neg hne]
    have hsame := not_ne_iff.mp hne
    split
    · next hl =>
      refine ⟨_, rfl, by simp [hsame], fun c => ?_⟩
      rw [List.map_append, List.mem_append]
      simp [Pair.key, hl, hsame ▸ hl]
    · next hl =>
      refine ⟨_, rfl, by simp [hsame], fun c => ?_⟩
      simp [hl]

variable (path) in
/-- All the names that both have. -/
theorem descendAll_spec (hl : options.limit = 0) {names : List String}
    (hall : ∀ name ∈ names, ∃ e e', Matched ls rs name e e' ∧
      (left.readInode e.inode).toBool = true ∧ (right.readInode e'.inode).toBool = true)
    (st : ComparisonReport × List Pair) :
    ∃ st', names.foldlM (descend left right options path ls rs) st = .ok st' ∧
      (HasDirDiff st'.1 ↔ HasDirDiff st.1 ∨ ∃ name ∈ names, ∃ e e', Matched ls rs name e e' ∧
        isDirAt left e.inode ≠ isDirAt right e'.inode) ∧
      ∀ c, c ∈ st'.2.map Pair.key ↔ c ∈ st.2.map Pair.key ∨ ∃ name ∈ names, ∃ e e',
        Matched ls rs name e e' ∧ isDirAt left e.inode = true ∧ isDirAt right e'.inode = true ∧
          c = (e.inode, e'.inode) := by
  induction names generalizing st with
  | nil => exact ⟨st, rfl, by simp, by simp⟩
  | cons name names ih =>
    obtain ⟨e, e', hm, he, he'⟩ := hall name List.mem_cons_self
    have honly : ∀ o o', Matched ls rs name o o' → o = e ∧ o' = e' := by
      intro o o' hmo
      exact ⟨Option.some.inj (hmo.1.symm.trans hm.1), Option.some.inj (hmo.2.symm.trans hm.2)⟩
    obtain ⟨st1, hone, hdiff1, hadd1⟩ := descend_spec path hl hm he he' st
    obtain ⟨st', hrest, hdiff, hadd⟩ := ih (fun n hn => hall n (List.mem_cons_of_mem name hn)) st1
    refine ⟨st', ?_, ?_, fun c => ?_⟩
    · rw [List.foldlM_cons, hone]
      exact hrest
    · rw [hdiff, hdiff1, or_assoc, List.exists_mem_cons_iff]
      refine or_congr_right (or_congr_left ⟨fun h => ⟨e, e', hm, h⟩, ?_⟩)
      rintro ⟨o, o', hmo, h⟩
      obtain ⟨rfl, rfl⟩ := honly o o' hmo
      exact h
    · rw [hadd, hadd1, or_assoc, List.exists_mem_cons_iff]
      refine or_congr_right (or_congr_left ⟨fun h => ⟨e, e', hm, h⟩, ?_⟩)
      rintro ⟨o, o', hmo, h⟩
      obtain ⟨rfl, rfl⟩ := honly o o' hmo
      exact h

end Visit

/-- Two directories of trees, no two names of which are the same text. -/
structure Comparable (left right : Filesystem) (a b : Nat) (ls rs : List DirEntry) : Prop where
  dir : DirAt left a ls
  dir' : DirAt right b rs
  distinct : Distinct ls
  distinct' : Distinct rs
  treed : ∀ e ∈ ls, Proper e → Treed left e.inode
  treed' : ∀ e ∈ rs, Proper e → Treed right e.inode
  legible : Legible ls rs

theorem Treed.readable {fs : Filesystem} {inum : Nat} (h : Treed fs inum) :
    (fs.readInode inum).toBool = true := by
  cases h with
  | file h =>
    obtain ⟨inode, hinode, -⟩ := h
    exact toBool_iff.mpr ⟨inode, hinode⟩
  | dir h =>
    obtain ⟨inode, hinode, -⟩ := h
    exact toBool_iff.mpr ⟨inode, hinode⟩

section Pairs

variable {left right : Filesystem} {a b : Nat} {ls rs : List DirEntry} {options : CompareOptions}

theorem Comparable.symm (h : Comparable left right a b ls rs) :
    Comparable right left b a rs ls := by
  refine ⟨h.dir', h.dir, h.distinct', h.distinct, h.treed', h.treed, fun e he hp e' he' hp' => ?_⟩
  exact h.legible e (List.mem_append.mpr (List.mem_append.mp he).symm) hp e'
    (List.mem_append.mpr (List.mem_append.mp he').symm) hp'

/-- Entries of the two directories have the same text when they have the same name. -/
theorem Comparable.text_iff (h : Comparable left right a b ls rs) {e e' : DirEntry} (he : e ∈ ls)
    (hp : Proper e) (he' : e' ∈ rs) (hp' : Proper e') :
    e'.nameString = e.nameString ↔ e'.name = e.name := by
  constructor
  · intro htext
    exact h.legible e' (List.mem_append_right _ he') hp' e (List.mem_append_left _ he) hp htext
  · intro hname
    rw [DirEntry.nameString, DirEntry.nameString, hname]

/-- The entries the walk takes for a common name are the ones with that name. -/
theorem Comparable.matched (h : Comparable left right a b ls rs) {e e' : DirEntry} (he : e ∈ ls)
    (hp : Proper e) (he' : e' ∈ rs) (hp' : Proper e') (hname : e.name = e'.name) :
    Matched ls rs e.nameString e e' := by
  have htext := (h.text_iff he hp he' hp').mpr hname.symm
  refine ⟨find_eq h.distinct (fun o ho hpo o' ho' => ?_) he hp, ?_⟩
  · exact h.legible o (List.mem_append_left _ ho) hpo o' (List.mem_append_left _ ho')
  · rw [← htext]
    refine find_eq h.distinct' (fun o ho hpo o' ho' => ?_) he' hp'
    exact h.legible o (List.mem_append_right _ ho) hpo o' (List.mem_append_right _ ho')

theorem Comparable.mem_common_iff (h : Comparable left right a b ls rs) {name : String} :
    name ∈ (dirNames ls).filter (dirNames rs).contains ↔ ∃ e ∈ ls, ∃ e' ∈ rs, Proper e ∧
      Proper e' ∧ e.name = e'.name ∧ e.nameString = name := by
  rw [List.mem_filter, List.contains_iff_mem, mem_dirNames, mem_dirNames]
  constructor
  · rintro ⟨⟨e, he, hp, rfl⟩, e', he', hp', htext⟩
    exact ⟨e, he, e', he', hp, hp', ((h.text_iff he hp he' hp').mp htext).symm, rfl⟩
  · rintro ⟨e, he, e', he', hp, hp', hname, rfl⟩
    exact ⟨⟨e, he, hp, rfl⟩, e', he', hp', (h.text_iff he hp he' hp').mpr hname.symm⟩

/-- A fact about the entries taken for some common name is one about entries with one name. -/
theorem Comparable.exists_matched_iff (h : Comparable left right a b ls rs)
    (P : DirEntry → DirEntry → Prop) :
    (∃ name ∈ (dirNames ls).filter (dirNames rs).contains, ∃ e e', Matched ls rs name e e' ∧
        P e e') ↔
      ∃ e ∈ ls, ∃ e' ∈ rs, Proper e ∧ Proper e' ∧ e.name = e'.name ∧ P e e' := by
  constructor
  · rintro ⟨name, hname, o, o', hm, hP⟩
    obtain ⟨e, he, e', he', hp, hp', hsame, rfl⟩ := h.mem_common_iff.mp hname
    have hm' := h.matched he hp he' hp' hsame
    cases Option.some.inj (hm.1.symm.trans hm'.1)
    cases Option.some.inj (hm.2.symm.trans hm'.2)
    exact ⟨o, he, o', he', hp, hp', hsame, hP⟩
  · rintro ⟨e, he, e', he', hp, hp', hsame, hP⟩
    exact ⟨e.nameString, h.mem_common_iff.mpr ⟨e, he, e', he', hp, hp', hsame, rfl⟩, e, e',
      h.matched he hp he' hp' hsame, hP⟩

/-- A name that the left directory has alone, as text and as bytes. -/
theorem Comparable.missing_iff (h : Comparable left right a b ls rs) :
    (∃ name ∈ dirNames ls, name ∉ dirNames rs) ↔
      ∃ e ∈ ls, Proper e ∧ ∀ e' ∈ rs, Proper e' → e'.name ≠ e.name := by
  constructor
  · rintro ⟨name, hmem, hnot⟩
    obtain ⟨e, he, hp, rfl⟩ := mem_dirNames.mp hmem
    refine ⟨e, he, hp, fun e' he' hp' hname => hnot ?_⟩
    exact mem_dirNames.mpr ⟨e', he', hp', (h.text_iff he hp he' hp').mpr hname⟩
  · rintro ⟨e, he, hp, hnone⟩
    refine ⟨e.nameString, mem_dirNames.mpr ⟨e, he, hp, rfl⟩, fun hmem => ?_⟩
    obtain ⟨e', he', hp', htext⟩ := mem_dirNames.mp hmem
    exact hnone e' he' hp' ((h.text_iff he hp he' hp').mp htext)

/-- What the walk reports of a pair of directories, and the pairs it queues. -/
theorem visit_spec (hl : options.limit = 0) (h : Comparable left right a b ls rs) (path : String)
    (report : ComparisonReport) :
    ∃ report' added, visit left right options ⟨path, a, b⟩ report = .ok (report', added) ∧
      (HasDirDiff report' ↔ HasDirDiff report ∨
        (∃ e ∈ ls, Proper e ∧ ∀ e' ∈ rs, Proper e' → e'.name ≠ e.name) ∨
        (∃ e' ∈ rs, Proper e' ∧ ∀ e ∈ ls, Proper e → e.name ≠ e'.name) ∨
        ∃ e ∈ ls, ∃ e' ∈ rs, Proper e ∧ Proper e' ∧ e.name = e'.name ∧
          isDirAt left e.inode ≠ isDirAt right e'.inode) ∧
      ∀ c, c ∈ added.map Pair.key ↔ ∃ e ∈ ls, ∃ e' ∈ rs, Proper e ∧ Proper e' ∧
        e.name = e'.name ∧ isDirAt left e.inode = true ∧ isDirAt right e'.inode = true ∧
          c = (e.inode, e'.inode) := by
  obtain ⟨lInode, hlInode, hldir, hlEntries⟩ := h.dir
  obtain ⟨rInode, hrInode, hrdir, hrEntries⟩ := h.dir'
  have hall : ∀ name ∈ (dirNames ls).filter (dirNames rs).contains, ∃ e e',
      Matched ls rs name e e' ∧ (left.readInode e.inode).toBool = true ∧
        (right.readInode e'.inode).toBool = true := by
    intro name hname
    obtain ⟨e, he, e', he', hp, hp', hsame, rfl⟩ := h.mem_common_iff.mp hname
    exact ⟨e, e', h.matched he hp he' hp' hsame, (h.treed e he hp).readable,
      (h.treed' e' he' hp').readable⟩
  obtain ⟨st', hfold, hdiff, hadd⟩ := descendAll_spec path hl hall
    ((report.pushMissing options (.directory path) (dirNames ls) (dirNames rs) "present"
      "missing").pushMissing options (.directory path) (dirNames rs) (dirNames ls) "missing"
        "present", [])
  refine ⟨st'.1, st'.2, ?_, ?_, fun c => ?_⟩
  · unfold visit
    dsimp only
    rw [hlInode, bind_of_ok rfl, hrInode, bind_of_ok rfl, hldir, hrdir, hlEntries, hrEntries]
    exact hfold
  · rw [hdiff, hasDirDiff_pushMissing_iff hl, hasDirDiff_pushMissing_iff hl, h.missing_iff,
      h.symm.missing_iff, h.exists_matched_iff fun e e' => isDirAt left e.inode ≠ isDirAt right e'.inode,
      or_assoc, or_assoc]
  · rw [hadd, h.exists_matched_iff fun e e' => isDirAt left e.inode = true ∧
      isDirAt right e'.inode = true ∧ c = (e.inode, e'.inode)]
    simp

end Pairs

/-! ## The walk over two trees -/

section Walk

variable {left right : Filesystem} {a b : Nat} {ls rs : List DirEntry} {options : CompareOptions}

theorem isDirAt_iff {fs : Filesystem} {inum : Nat} (h : Treed fs inum) :
    isDirAt fs inum = true ↔ ∃ entries, DirAt fs inum entries := by
  cases h with
  | file h =>
    obtain ⟨inode, hinode, hfile⟩ := h
    rw [isDirAt, hinode]
    refine ⟨fun hdir => ?_, fun ⟨entries, hdir⟩ => absurd ⟨inode, hinode, hfile⟩ hdir.not_file⟩
    rw [show (Except.ok inode : Except Failure Inode).toOption.any Inode.isDir = inode.isDir from
      rfl, hfile] at hdir
    cases hdir
  | @dir _ entries h =>
    obtain ⟨inode, hinode, hdir, hentries⟩ := h
    rw [isDirAt, hinode]
    exact ⟨fun _ => ⟨entries, inode, hinode, hdir, hentries⟩, fun _ => hdir⟩

/-- Two trees differ in the kinds of their roots, or both are directories that differ. -/
theorem differ_iff_kinds (ha : Treed left a) (hb : Treed right b) :
    Differ left right a b ↔ isDirAt left a ≠ isDirAt right b ∨
      isDirAt left a = true ∧ isDirAt right b = true ∧ Differ left right a b := by
  have hfile : ∀ {fs : Filesystem} {inum : Nat}, FileAt fs inum → isDirAt fs inum = false := by
    rintro fs inum ⟨inode, hinode, hfile⟩
    rw [isDirAt, hinode]
    exact hfile
  cases ha with
  | file ha =>
    cases hb with
    | file hb => simp [hfile ha, hfile hb, not_differ_files ha hb]
    | dir hb distinct below =>
      have hdir := (isDirAt_iff (.dir hb distinct below)).mpr ⟨_, hb⟩
      simp [hfile ha, hdir, differ_of_kinds' ha hb]
  | dir ha distinct below =>
    have hdir := (isDirAt_iff (.dir ha distinct below)).mpr ⟨_, ha⟩
    cases hb with
    | file hb => simp [hfile hb, hdir, differ_of_kinds ha hb]
    | dir hb distinct below =>
      have hdir' := (isDirAt_iff (.dir hb distinct below)).mpr ⟨_, hb⟩
      simp [hdir, hdir']

/-- No two names of directories at one path below are the same text. -/
def LegibleFrom (left right : Filesystem) (a b : Nat) : Prop :=
  ∀ path a' b' ls rs, LeadsTo left a path a' → LeadsTo right b path b' → DirAt left a' ls →
    DirAt right b' rs → Legible ls rs

theorem LegibleFrom.child (h : LegibleFrom left right a b) (ha : DirAt left a ls)
    (hb : DirAt right b rs) {e e' : DirEntry} (he : e ∈ ls) (hp : Proper e) (he' : e' ∈ rs)
    (hp' : Proper e') (hname : e.name = e'.name) : LegibleFrom left right e.inode e'.inode := by
  intro path a' b' ls' rs' hlead hlead'
  have hright := LeadsTo.child hb he' hp' hlead'
  rw [← hname] at hright
  exact h (e.name :: path) a' b' ls' rs' (.child ha he hp hlead) hright

/-- Whatever waits in the queue, the walk gets past the pair, and has then reported a difference
    if the trees below the two differ. -/
def WalksPast (left right : Filesystem) (options : CompareOptions) (pair : Pair) : Prop :=
  ∀ queue report, ∃ report',
    (∀ r, Ends (walkTurn left right options) (queue, report') r →
      Ends (walkTurn left right options) (pair :: queue, report) r) ∧
    (HasDirDiff report' ↔ HasDirDiff report ∨ Differ left right pair.left pair.right)

/-- A row of pairs on top of the queue. -/
theorem walksPast_all {pairs : List Pair} (h : ∀ p ∈ pairs, WalksPast left right options p)
    (queue : List Pair) (report : ComparisonReport) :
    ∃ report', (∀ r, Ends (walkTurn left right options) (queue, report') r →
        Ends (walkTurn left right options) (pairs ++ queue, report) r) ∧
      (HasDirDiff report' ↔ HasDirDiff report ∨ ∃ p ∈ pairs, Differ left right p.left p.right) := by
  induction pairs generalizing report with
  | nil => exact ⟨report, fun r h => h, by simp⟩
  | cons p pairs ih =>
    obtain ⟨report1, hends1, hdiff1⟩ := h p List.mem_cons_self (pairs ++ queue) report
    obtain ⟨report', hends, hdiff⟩ := ih (fun q hq => h q (List.mem_cons_of_mem p hq)) report1
    refine ⟨report', fun r hr => hends1 r (hends r hr), ?_⟩
    rw [hdiff, hdiff1, or_assoc, List.exists_mem_cons_iff]

/-- The pairs that a pair of directories adds are past when their own trees are. -/
theorem walksPast_of_added (hl : options.limit = 0) (h : Comparable left right a b ls rs)
    (path : String)
    (below : ∀ e ∈ ls, Proper e → ∀ e' ∈ rs, Proper e' → e.name = e'.name →
      isDirAt left e.inode = true → isDirAt right e'.inode = true →
        ∀ path', WalksPast left right options ⟨path', e.inode, e'.inode⟩) :
    WalksPast left right options ⟨path, a, b⟩ := by
  intro queue report
  obtain ⟨report1, added, hvisit, hdiff1, hadd⟩ := visit_spec hl h path report
  have hall : ∀ p ∈ added.reverse, WalksPast left right options p := by
    rintro ⟨path', x, y⟩ hp
    obtain ⟨e, he, e', he', hpr, hpr', hname, hd, hd', hkey⟩ :=
      (hadd (x, y)).mp (List.mem_map.mpr ⟨_, List.mem_reverse.mp hp, rfl⟩)
    cases hkey
    exact below e he hpr e' he' hpr' hname hd hd' path'
  have hbelow : (∃ p ∈ added.reverse, Differ left right p.left p.right) ↔
      ∃ e ∈ ls, ∃ e' ∈ rs, Proper e ∧ Proper e' ∧ e.name = e'.name ∧
        isDirAt left e.inode = true ∧ isDirAt right e'.inode = true ∧
          Differ left right e.inode e'.inode := by
    constructor
    · rintro ⟨p, hp, hdiff⟩
      obtain ⟨e, he, e', he', hpr, hpr', hname, hd, hd', hkey⟩ :=
        (hadd p.key).mp (List.mem_map.mpr ⟨p, List.mem_reverse.mp hp, rfl⟩)
      obtain ⟨hx, hy⟩ := Prod.mk.inj hkey
      rw [hx, hy] at hdiff
      exact ⟨e, he, e', he', hpr, hpr', hname, hd, hd', hdiff⟩
    · rintro ⟨e, he, e', he', hpr, hpr', hname, hd, hd', hdiff⟩
      obtain ⟨p, hp, hkey⟩ := List.mem_map.mp
        ((hadd (e.inode, e'.inode)).mpr ⟨e, he, e', he', hpr, hpr', hname, hd, hd', rfl⟩)
      obtain ⟨hx, hy⟩ := Prod.mk.inj hkey
      exact ⟨p, List.mem_reverse.mpr hp, by rwa [hx, hy]⟩
  obtain ⟨report', hends, hdiff⟩ := walksPast_all hall queue report1
  refine ⟨report', fun r hr => ?_, ?_⟩
  · refine .turn (t := (added.reverse ++ queue, report1)) ?_ (hends r hr)
    rw [walkTurn, hvisit]
  · have hkinds : (∃ e ∈ ls, ∃ e' ∈ rs, Proper e ∧ Proper e' ∧ e.name = e'.name ∧
        Differ left right e.inode e'.inode) ↔
        (∃ e ∈ ls, ∃ e' ∈ rs, Proper e ∧ Proper e' ∧ e.name = e'.name ∧
          isDirAt left e.inode ≠ isDirAt right e'.inode) ∨
        ∃ p ∈ added.reverse, Differ left right p.left p.right := by
      rw [hbelow]
      constructor
      · rintro ⟨e, he, e', he', hpr, hpr', hname, hd⟩
        rcases (differ_iff_kinds (h.treed e he hpr) (h.treed' e' he' hpr')).mp hd with hk | hd
        · exact .inl ⟨e, he, e', he', hpr, hpr', hname, hk⟩
        · exact .inr ⟨e, he, e', he', hpr, hpr', hname, hd⟩
      · rintro (⟨e, he, e', he', hpr, hpr', hname, hk⟩ | ⟨e, he, e', he', hpr, hpr', hname, hd⟩)
        · exact ⟨e, he, e', he', hpr, hpr', hname,
            (differ_iff_kinds (h.treed e he hpr) (h.treed' e' he' hpr')).mpr (.inl hk)⟩
        · exact ⟨e, he, e', he', hpr, hpr', hname, hd.2.2⟩
    rw [hdiff, hdiff1, differ_dirs_iff h.dir h.dir' h.distinct h.distinct' h.treed h.treed', hkinds]
    simp only [or_assoc]

/-- The walk gets past two trees, and finds whether they differ. -/
theorem walksPast_of_treed (hl : options.limit = 0) (ha : Treed left a) (hb : Treed right b)
    (hda : DirAt left a ls) (hdb : DirAt right b rs) (hlegible : LegibleFrom left right a b)
    (path : String) : WalksPast left right options ⟨path, a, b⟩ := by
  induction ha generalizing b ls rs path with
  | file h => exact absurd h hda.not_file
  | @dir a entries h distinct below ih =>
    cases hb with
    | file h' => exact absurd h' hdb.not_file
    | @dir _ entries' h' distinct' below' =>
      have hc : Comparable left right a b entries entries' :=
        ⟨h, h', distinct, distinct', below, below',
          hlegible [] a b entries entries' (.here a) (.here b) h h'⟩
      refine walksPast_of_added hl hc path fun e he hp e' he' hp' hname hd hd' path' => ?_
      obtain ⟨ls', hls'⟩ := (isDirAt_iff (below e he hp)).mp hd
      obtain ⟨rs', hrs'⟩ := (isDirAt_iff (below' e' he' hp')).mp hd'
      exact ih e he hp (below' e' he' hp') hls' hrs' (hlegible.child h h' he hp he' hp' hname) path'

end Walk

/-! ## What comes before the directories -/

section Head

variable {left right : Filesystem} {options : CompareOptions} {report : ComparisonReport}

/-- A difference that is not in a directory. -/
def Elsewhere (area : Area) : Prop := ∀ path, area ≠ .directory path

theorem not_hasDirDiff_pushIf {d : Difference} {found : Bool} (ha : Elsewhere d.area)
    (h : ¬HasDirDiff report) : ¬HasDirDiff (report.pushIf options found d) := by
  unfold ComparisonReport.pushIf ComparisonReport.push
  split
  · split
    · exact h
    · split
      · exact h
      · rintro ⟨o, ho, path, harea⟩
        rcases List.mem_append.mp ho with ho | ho
        · exact h ⟨o, ho, path, harea⟩
        · rw [List.mem_singleton.mp ho] at harea
          exact ha path harea
  · exact h

theorem not_hasDirDiff_foldl {α : Type} {f : ComparisonReport → α → ComparisonReport}
    (hf : ∀ x report, ¬HasDirDiff report → ¬HasDirDiff (f report x)) (xs : List α)
    (h : ¬HasDirDiff report) : ¬HasDirDiff (xs.foldl f report) := by
  induction xs generalizing report with
  | nil => exact h
  | cons x xs ih => exact ih (hf x report h)

theorem not_hasDirDiff_compareFeatures {l r : Superblock} (h : ¬HasDirDiff report) :
    ¬HasDirDiff (compareFeatures l r options report) := by
  have hf : Elsewhere .features := fun _ => nofun
  exact not_hasDirDiff_foldl (fun _ _ => not_hasDirDiff_pushIf hf) _
    (not_hasDirDiff_foldl (fun _ _ => not_hasDirDiff_pushIf hf) _ h)

theorem not_hasDirDiff_compareSuperblock {l r : Superblock} (h : ¬HasDirDiff report) :
    ¬HasDirDiff (compareSuperblock l r options report) := by
  have hs : Elsewhere .superblock := fun _ => nofun
  refine not_hasDirDiff_pushIf hs (not_hasDirDiff_pushIf hs (not_hasDirDiff_pushIf hs
    (not_hasDirDiff_pushIf hs (not_hasDirDiff_pushIf hs ?_))))
  exact not_hasDirDiff_foldl (fun _ _ => not_hasDirDiff_pushIf hs) _ h

theorem not_hasDirDiff_compareGroupDescs (h : ¬HasDirDiff report) :
    ¬HasDirDiff (compareGroupDescs left right options report) := by
  have hs : Elsewhere .superblock := fun _ => nofun
  have hg : ∀ group, Elsewhere (.groupDesc group) := fun _ _ => nofun
  exact not_hasDirDiff_foldl
    (fun pair _ => not_hasDirDiff_foldl (fun _ _ => not_hasDirDiff_pushIf (hg pair.2)) _) _
    (not_hasDirDiff_pushIf hs h)

theorem not_hasDirDiff_compareInode {inum : Nat} {l r : Inode} (h : ¬HasDirDiff report) :
    ¬HasDirDiff (compareInode inum l r options report) := by
  have hi : Elsewhere (.inode inum) := fun _ => nofun
  exact not_hasDirDiff_pushIf hi (not_hasDirDiff_pushIf hi (not_hasDirDiff_pushIf hi
    (not_hasDirDiff_pushIf hi (not_hasDirDiff_pushIf hi (not_hasDirDiff_pushIf hi
      (not_hasDirDiff_pushIf hi (not_hasDirDiff_pushIf hi (not_hasDirDiff_pushIf hi h))))))))

theorem not_hasDirDiff_compareInodes {inums : List Nat} {report' : ComparisonReport}
    (h : ¬HasDirDiff report)
    (hok : compareInodes left right options inums report = .ok report') :
    ¬HasDirDiff report' := by
  induction inums generalizing report with
  | nil => exact Except.ok.inj hok ▸ h
  | cons inum inums ih =>
    rw [compareInodes] at hok
    split at hok
    · exact Except.ok.inj hok ▸ h
    · obtain ⟨l, -, hok⟩ := bind_ok hok
      obtain ⟨r, -, hok⟩ := bind_ok hok
      exact ih (not_hasDirDiff_compareInode h) hok

/-- The comparison has reported nothing of the directories when it comes to them. -/
theorem not_hasDirDiff_compareHead (h : compareHead left right options = .ok report) :
    ¬HasDirDiff report := by
  have hnil : ¬HasDirDiff {} := by
    rintro ⟨d, hd, -⟩
    exact absurd hd List.not_mem_nil
  exact not_hasDirDiff_compareInodes (not_hasDirDiff_compareGroupDescs
    (not_hasDirDiff_compareSuperblock (not_hasDirDiff_compareFeatures hnil))) h

end Head

/-! ## The comparison of two trees -/

/-- Where no two names of directories at one path are the same text, `compare` returns, and it
    reports a difference in the directories exactly when the trees differ. -/
theorem compare_trees_iff (left right : Filesystem) (options : CompareOptions)
    (hl : options.limit = 0) {ls rs : List DirEntry} (hleft : DirAt left Ino.root ls)
    (hright : DirAt right Ino.root rs) (ha : Treed left Ino.root) (hb : Treed right Ino.root)
    (hres : ∀ inum, Reserved left right inum → Readable left right inum)
    (hlegible : LegibleFrom left right Ino.root Ino.root) :
    ∃ report, CompareEnds left right { options with walkDirectories := true } (.ok report) ∧
      (HasDirDiff report ↔ Differ left right Ino.root Ino.root) := by
  have hl' : { options with walkDirectories := true : CompareOptions }.limit = 0 := hl
  obtain ⟨report1, hhead⟩ :=
    (compareHead_ok_iff left right { options with walkDirectories := true }).mpr hres
  obtain ⟨report, hends, hdiff⟩ := walksPast_of_treed hl' ha hb hleft hright hlegible "/" [] report1
  refine ⟨report, ?_, hdiff.trans (or_iff_right (not_hasDirDiff_compareHead hhead))⟩
  rw [CompareEnds, hhead]
  exact hends _ (.stop rfl)

/-! ### Images of one file, under a name of one byte -/

/-- The root of the image, as a block. -/
def nameRoot (x : UInt8) : List UInt8 :=
  toLe 4 2 ++ [12, 0, 1, 2, 0x2e, 0, 0, 0] ++ toLe 4 2 ++ [12, 0, 2, 2, 0x2e, 0x2e, 0, 0] ++
    toLe 4 12 ++ [0xe8, 3, 1, 1, x, 0, 0, 0]

/-- 16 blocks, 16 inodes: the root lists file 12. -/
def nameImage (x : UInt8) : Device := .ofChunks 16384
  [(1024, toLe 4 16 ++ toLe 4 16), (1024 + 0x14, [1]), (1024 + 0x21, [0x20]), (1024 + 0x28, [16]),
    (1024 + 0x38, [0x53, 0xef]), (2048, [3, 0, 0, 0, 4, 0, 0, 0, 5]),
    (5 * 1024 + 128, Fsck.dirInode 7),
    (6 * 1024 + 3 * 128, toLe 2 0x81a4 ++ List.replicate 24 0 ++ [1, 0]), (7 * 1024, nameRoot x)]

def fileEntry (x : UInt8) : DirEntry := { inode := 12, recLen := 1000, fileType := 1, name := [x] }

def nameEntries (x : UInt8) : List DirEntry :=
  [{ inode := 2, recLen := 12, fileType := 2, name := dotName },
    { inode := 2, recLen := 12, fileType := 2, name := dotdotName }, fileEntry x]

/-- What the image holds. -/
structure HoldsName (fs : Filesystem) (x : UInt8) : Prop where
  reserved : ∀ inum ∈ List.range' 1 11, (fs.readInode inum).toBool = true
  firstIno : fs.superblock.firstIno = 11
  root : DirAt fs Ino.root (nameEntries x)
  file : FileAt fs 12

/-- `HoldsName`, as a program. -/
def holdsName (fs : Filesystem) (x : UInt8) : Bool :=
  (List.range' 1 11).all (fun inum => (fs.readInode inum).toBool) &&
    decide (fs.superblock.firstIno = 11) &&
    (fs.readInode Ino.root).toOption.any (fun inode =>
      inode.isDir && decide (fs.readDir inode = .ok (nameEntries x))) &&
    (fs.readInode 12).toOption.any fun inode => !inode.isDir

section Names

variable {fs left right : Filesystem} {x y : UInt8}

theorem holdsName_spec (h : holdsName fs x = true) : HoldsName fs x := by
  have hany : ∀ {inum : Nat} {p : Inode → Bool}, (fs.readInode inum).toOption.any p = true →
      ∃ inode, fs.readInode inum = .ok inode ∧ p inode = true := by
    intro inum p hp
    cases hread : fs.readInode inum with
    | error e =>
      rw [hread] at hp
      cases hp
    | ok inode =>
      rw [hread] at hp
      exact ⟨inode, rfl, hp⟩
  simp only [holdsName, Bool.and_eq_true, decide_eq_true_eq] at h
  obtain ⟨⟨⟨hreserved, hfirst⟩, hroot⟩, hfile⟩ := h
  obtain ⟨inode, hinode, hp⟩ := hany hroot
  obtain ⟨hdir, hentries⟩ := Bool.and_eq_true_iff.mp hp
  obtain ⟨file, hread, hp⟩ := hany hfile
  exact ⟨List.all_eq_true.mp hreserved, hfirst,
    ⟨inode, hinode, hdir, of_decide_eq_true hentries⟩, ⟨file, hread, by simpa using hp⟩⟩

/-- An entry of the root other than `.` and `..` is the file's. -/
theorem mem_nameEntries {e : DirEntry} (he : e ∈ nameEntries x) (hp : Proper e) :
    e = fileEntry x := by
  simp only [nameEntries, List.mem_cons, List.not_mem_nil, or_false] at he
  rcases he with rfl | rfl | rfl
  · exact absurd rfl hp.1
  · exact absurd rfl hp.2
  · rfl

theorem HoldsName.treed (h : HoldsName fs x) : Treed fs Ino.root := by
  refine .dir h.root ?_ fun e he hp => ?_
  · have hone : (([fileEntry x].filter Proper).map DirEntry.name).Sublist [[x]] :=
      List.filter_sublist.map DirEntry.name
    unfold Distinct nameEntries
    rw [List.filter_cons_of_neg (by decide), List.filter_cons_of_neg (by decide)]
    exact hone.nodup (List.nodup_singleton _)
  · rw [mem_nameEntries he hp]
    exact .file h.file

theorem leadsTo_of_file {inum target : Nat} {path : List (List UInt8)}
    (h : LeadsTo fs inum path target) (hfile : FileAt fs inum) : target = inum := by
  cases h with
  | here => rfl
  | child hdir => exact absurd hfile hdir.not_file

theorem HoldsName.legible (hl : HoldsName left x) (hr : HoldsName right y)
    (htext : (fileEntry x).nameString = (fileEntry y).nameString → x = y) :
    LegibleFrom left right Ino.root Ino.root := by
  intro path a' b' ls rs hlead hlead' ha hb
  cases hlead with
  | here =>
    cases hlead'
    rw [ha.unique hl.root, hb.unique hr.root]
    have hall : ∀ e ∈ nameEntries x ++ nameEntries y, Proper e → e = fileEntry x ∨
        e = fileEntry y := by
      intro e he hp
      rcases List.mem_append.mp he with he | he
      · exact .inl (mem_nameEntries he hp)
      · exact .inr (mem_nameEntries he hp)
    intro e he hp e' he' hp' hsame
    rcases hall e he hp with rfl | rfl <;> rcases hall e' he' hp' with rfl | rfl
    · rfl
    · rw [htext hsame]
    · rw [htext hsame.symm]
    · rfl
  | child hdir he hp rest =>
    rw [hdir.unique hl.root] at he
    rw [mem_nameEntries he hp] at rest
    cases leadsTo_of_file rest hl.file
    exact absurd hl.file ha.not_file

/-- Two names of one byte are two sets of paths. -/
theorem HoldsName.differ (hl : HoldsName left x) (hr : HoldsName right y)
    (hp : Proper (fileEntry x)) (hne : x ≠ y) : Differ left right Ino.root Ino.root := by
  have hxs : fileEntry x ∈ nameEntries x := by simp [nameEntries]
  refine ⟨[[x]], false, fun h => ?_⟩
  have hfile := (hasPath_of_file hl.file).mpr ⟨rfl, rfl⟩
  obtain ⟨e, he, hpe, hname, -⟩ := (hasPath_cons hr.root).mp
    (h.mp ((hasPath_cons hl.root).mpr ⟨fileEntry x, hxs, hp, rfl, hfile⟩))
  rw [mem_nameEntries he hpe] at hname
  exact hne (List.cons.inj hname).1.symm

theorem HoldsName.readable (hl : HoldsName left x) (hr : HoldsName right y) {inum : Nat}
    (h : Reserved left right inum) : Readable left right inum := by
  have hmem : inum ∈ List.range' 1 11 := by
    have := h.1
    have := h.2.1
    rw [hl.firstIno, hr.firstIno] at this
    rw [List.mem_range'_1]
    omega
  exact ⟨hl.reserved inum hmem, hr.reserved inum hmem⟩

/-- Where the two names are one text, a visit of the roots finds nothing. -/
theorem HoldsName.visit_root (hl : HoldsName left x) (hr : HoldsName right y) {name : String}
    (hx : dirNames (nameEntries x) = [name]) (hy : dirNames (nameEntries y) = [name])
    (hm : Matched (nameEntries x) (nameEntries y) name (fileEntry x) (fileEntry y))
    (report : ComparisonReport) :
    visit left right .everything rootPair report = .ok (report, []) := by
  obtain ⟨l, hlread, hldir, hlist⟩ := hl.root
  obtain ⟨r, hrread, hrdir, hrlist⟩ := hr.root
  obtain ⟨lfile, hlfile, hlkind⟩ := hl.file
  obtain ⟨rfile, hrfile, hrkind⟩ := hr.file
  have hkept : ∀ s t, report.pushMissing .everything (.directory "/") [name] [name] s t =
      report := by
    intro s t
    simp [ComparisonReport.pushMissing, ComparisonReport.pushIf]
  have hdescend : descend left right .everything "/" (nameEntries x) (nameEntries y)
      (report, []) name = .ok (report, []) := by
    unfold descend
    rw [hm.1, hm.2]
    dsimp only [fileEntry]
    rw [hlfile, bind_of_ok rfl, hrfile, bind_of_ok rfl, hlkind, hrkind]
    rfl
  unfold visit rootPair
  dsimp only
  rw [hlread, bind_of_ok rfl, hrread, bind_of_ok rfl, hldir, hrdir, hlist, hrlist,
    bind_of_ok rfl, bind_of_ok rfl, hx, hy, hkept, hkept]
  simp [hdescend]

theorem holds_of_run (h : (openOn (nameImage x)).toOption.any (holdsName · x) = true) :
    ∃ fs, openOn (nameImage x) = .ok fs ∧ HoldsName fs x := by
  cases hopen : openOn (nameImage x) with
  | error e =>
    rw [hopen] at h
    cases h
  | ok fs =>
    rw [hopen] at h
    exact ⟨fs, rfl, holdsName_spec h⟩

end Names

theorem nameImage_holds : ∀ x ∈ [0x61, 0xfe, 0xff],
    ∃ fs, openOn (nameImage x) = .ok fs ∧ HoldsName fs x := by
  refine List.forall_mem_cons.mpr ⟨holds_of_run ?_,
    List.forall_mem_cons.mpr ⟨holds_of_run ?_, List.forall_mem_singleton.mpr (holds_of_run ?_)⟩⟩
  · decide +kernel
  · decide +kernel
  · decide +kernel

/-- A name that is no text, and one that is. -/
theorem compare_names_trees : ∃ left right report, openOn (nameImage 0xff) = .ok left ∧
    openOn (nameImage 0x61) = .ok right ∧
    CompareEnds left right { CompareOptions.everything with walkDirectories := true }
      (.ok report) ∧
    (HasDirDiff report ↔ Differ left right Ino.root Ino.root) := by
  obtain ⟨left, hleft, hl⟩ := nameImage_holds 0xff (by decide)
  obtain ⟨right, hright, hr⟩ := nameImage_holds 0x61 (by decide)
  obtain ⟨report, hends, hiff⟩ := compare_trees_iff left right .everything rfl hl.root hr.root
    hl.treed hr.treed (fun inum => hl.readable hr)
    (hl.legible hr fun h => absurd h (by decide))
  exact ⟨left, right, report, hleft, hright, hends, hiff⟩

/-- Two files under names that are the same text: the trees differ, and nothing is reported. -/
theorem text_hides_difference : ∃ left right, openOn (nameImage 0xff) = .ok left ∧
    openOn (nameImage 0xfe) = .ok right ∧ Treed left Ino.root ∧ Treed right Ino.root ∧
    Differ left right Ino.root Ino.root ∧
    ∃ report, CompareEnds left right .everything (.ok report) ∧ ¬HasDirDiff report := by
  obtain ⟨left, hleft, hl⟩ := nameImage_holds 0xff (by decide)
  obtain ⟨right, hright, hr⟩ := nameImage_holds 0xfe (by decide)
  obtain ⟨report, hhead⟩ :=
    (compareHead_ok_iff left right .everything).mpr fun inum => hl.readable hr
  have hmatched : Matched (nameEntries 0xff) (nameEntries 0xfe) ((fileEntry 0xff).nameString)
      (fileEntry 0xff) (fileEntry 0xfe) := ⟨by decide +kernel, by decide +kernel⟩
  have hvisit := hl.visit_root hr (by decide +kernel) (by decide +kernel) hmatched report
  refine ⟨left, right, hleft, hright, hl.treed, hr.treed,
    hl.differ hr (by decide) (by decide), report, ?_, not_hasDirDiff_compareHead hhead⟩
  rw [CompareEnds, hhead]
  dsimp only
  rw [if_pos (show CompareOptions.everything.walkDirectories = true from rfl)]
  refine .turn (t := ([], report)) ?_ (.stop rfl)
  rw [walkTurn, hvisit]
  rfl

end MkfsExt4.Compare
