/-
  Looking a name up by hash through interior nodes (`lookup_indexed` of `src/fs.rs`).

  The search goes down one level and then keeps to the node it came to. In a valid index of two
  levels it answers as the linear search exactly when the name, if it is there, is under the
  interior node that covers its hash (`lookup_twoLevel_iff`): a run of equal hashes that goes on
  in the next node is not followed. An index of more levels, or of a hash this code does not
  know, is searched all the same (`lookup_unknown_iff`).
-/
import MkfsExt4.Read.Lookup

namespace MkfsExt4

open Lib.Hoare Lib.Routing

namespace Filesystem

variable (fs : Filesystem)

/-- The bytes of a directory's logical block. -/
def nodeOf (dir : Inode) (k : Nat) : List UInt8 :=
  match fs.resolveBlock dir k with
  | .ok (some physical) => (fs.readBlock physical).toOption.getD []
  | _ => []

/-- The entries of the interior node under an entry of the root, the first with its hash. -/
def nodeEntries (dir : Inode) (x : Nat × Nat) : List (Nat × Nat) :=
  match Htree.entries (fs.nodeOf dir x.2) Htree.nodeCountOffset with
  | [] => []
  | e :: rest => (x.1, e.2) :: rest

/-- The leaves of a two-level index in order, each with the hash from which it takes names. -/
def leafTable (dir : Inode) (root : List UInt8) : List (Nat × Nat) :=
  (Htree.entries root Htree.rootCountOffset).flatMap (fs.nodeEntries dir)

/-- A valid index of two levels: the root leads to interior nodes, these to the leaves. -/
structure TwoLevel (dir : Inode) (root : List UInt8) : Prop where
  flag : Claims dir
  levels : Htree.indirectLevels root = 1
  holds : Htree.Holds root Htree.rootCountOffset
  nodes : ∀ x ∈ Htree.entries root Htree.rootCountOffset,
    ∃ physical, fs.resolveBlock dir x.2 = .ok (some physical) ∧
      fs.readBlock physical = .ok (fs.nodeOf dir x.2) ∧
      Htree.countOffset (fs.nodeOf dir x.2) fs.blockSize = some Htree.nodeCountOffset ∧
      Htree.Holds (fs.nodeOf dir x.2) Htree.nodeCountOffset
  indexed : fs.Indexed dir root (fs.leafTable dir root)
  distinct : ((fs.leafTable dir root).map Prod.snd).Nodup

/-- An entry is under the interior node that covers the hash of its name. -/
def UnderCovering (dir : Inode) (root : List UInt8) (e : DirEntry) : Prop :=
  ∃ c, ∃ x ∈ (Htree.entries root Htree.rootCountOffset)[c]?,
    Covers (fs.hashIn root e.name) (Htree.entries root Htree.rootCountOffset) c ∧
      ∃ leaf ∈ Htree.entries (fs.nodeOf dir x.2) Htree.nodeCountOffset,
        e ∈ fs.entriesOf dir leaf.2

variable {fs}

theorem readBlock_nodeOf {dir : Inode} {k physical : Nat}
    (hres : fs.resolveBlock dir k = .ok (some physical))
    (hok : (fs.readBlock physical).isOk = true) :
    fs.readBlock physical = .ok (fs.nodeOf dir k) := by
  rw [nodeOf, hres]
  dsimp only
  cases hread : fs.readBlock physical with
  | error e =>
    rw [hread] at hok
    cases hok
  | ok node => rfl

/-- The leaves under a node do not depend on the hash its first entry has above. -/
theorem leavesOf_nodeOf (dir : Inode) (x : Nat × Nat) (hash : Nat) :
    leavesOf (fs.nodeOf dir x.2) Htree.nodeCountOffset hash =
      (route Htree.continued hash (fs.nodeEntries dir x)).map Prod.snd := by
  rw [leavesOf, nodeEntries]
  cases Htree.entries (fs.nodeOf dir x.2) Htree.nodeCountOffset with
  | nil => rfl
  | cons e rest => exact map_snd_route_cons e.1 x.1 e.2 rest

theorem map_snd_nodeEntries (dir : Inode) (x : Nat × Nat) :
    (fs.nodeEntries dir x).map Prod.snd =
      (Htree.entries (fs.nodeOf dir x.2) Htree.nodeCountOffset).map Prod.snd := by
  rw [nodeEntries]
  cases Htree.entries (fs.nodeOf dir x.2) Htree.nodeCountOffset with
  | nil => rfl
  | cons e rest => rfl

section TwoLevel

variable {dir : Inode} {root : List UInt8} (h : fs.TwoLevel dir root)

include h

/-- The entries under a node start at its hash. -/
theorem TwoLevel.nodeEntries_cons {x : Nat × Nat}
    (hx : x ∈ Htree.entries root Htree.rootCountOffset) :
    ∃ e rest, fs.nodeEntries dir x = e :: rest ∧ e.1 = x.1 := by
  obtain ⟨-, -, -, -, hholds⟩ := h.nodes x hx
  have hsplit := Htree.drop_entries hholds.1
  rw [List.drop_zero] at hsplit
  rw [nodeEntries, hsplit]
  exact ⟨_, _, rfl, rfl⟩

/-- The root's entries are in ascending order, as the leaves under them are. -/
theorem TwoLevel.root_ascending :
    (Htree.entries root Htree.rootCountOffset).Pairwise (·.1 ≤ ·.1) := by
  refine (List.pairwise_flatMap.mp h.indexed.ascending).2.imp_of_mem fun {x y} hx hy hle => ?_
  obtain ⟨e, rest, heq, hkey⟩ := h.nodeEntries_cons hx
  obtain ⟨e', rest', heq', hkey'⟩ := h.nodeEntries_cons hy
  rw [← hkey, ← hkey']
  exact hle e (heq ▸ List.mem_cons_self) e' (heq' ▸ List.mem_cons_self)

/-- The search keeps to the node that covers the hash. -/
theorem TwoLevel.lookupIndexed_eq (name : List UInt8) : ∃ c, ∃ x,
    (Htree.entries root Htree.rootCountOffset)[c]? = some x ∧
      Covers (fs.hashIn root name) (Htree.entries root Htree.rootCountOffset) c ∧
      fs.lookupIndexed dir name = fs.followChain dir name
        ((route Htree.continued (fs.hashIn root name) (fs.nodeEntries dir x)).map Prod.snd) := by
  obtain ⟨physical, hres, hread⟩ := h.indexed.rootRead
  have hlt := Htree.position_lt_count h.holds (fs.hashIn root name)
  have hfind := Htree.find_ok h.holds (fs.hashIn root name)
  have hcovers := covers_position (fs.hashIn root name)
    (Htree.entryAt root Htree.rootCountOffset 0)
    ((Htree.entries root Htree.rootCountOffset).drop 1)
  have hsplit := Htree.drop_entries h.holds.1
  rw [List.drop_zero] at hsplit
  rw [← hsplit] at hcovers
  generalize position (fs.hashIn root name)
    ((Htree.entries root Htree.rootCountOffset).drop 1) = c at hlt hfind hcovers
  have hx := Htree.getElem?_entries hlt
  refine ⟨c, _, hx, hcovers, ?_⟩
  obtain ⟨child, hres', hread', hoffset, hholds⟩ := h.nodes _ (List.mem_of_getElem? hx)
  rw [← leavesOf_nodeOf, ← searchNode_eq hholds, lookupIndexed, hres]
  dsimp only [bind, Except.bind]
  rw [hread]
  dsimp only
  rw [if_neg (fun hne => hne h.indexed.isRoot), if_pos (by rw [h.levels]; exact Nat.one_pos), hfind]
  dsimp only
  rw [Htree.entry_ok h.holds hlt]
  dsimp only
  rw [hres']
  dsimp only
  rw [hread']
  dsimp only
  rw [hoffset]

/-- Of a listed entry, being in a leaf its hash is searched in is being under the node that covers
    the hash. -/
theorem TwoLevel.mem_searched_iff {e : DirEntry} (he : e ∈ fs.listing dir) (hname : e.name ∉ dots)
    {c : Nat} {x : Nat × Nat} (hx : (Htree.entries root Htree.rootCountOffset)[c]? = some x)
    (hc : Covers (fs.hashIn root e.name) (Htree.entries root Htree.rootCountOffset) c) :
    (∃ k ∈ (route Htree.continued (fs.hashIn root e.name) (fs.nodeEntries dir x)).map Prod.snd,
      e ∈ fs.entriesOf dir k) ↔ fs.UnderCovering dir root e := by
  constructor
  · intro ⟨k, hk, hmem⟩
    have hleaf : k ∈ (fs.nodeEntries dir x).map Prod.snd :=
      List.map_subset _ route_subset hk
    rw [map_snd_nodeEntries] at hleaf
    obtain ⟨leaf, hin, rfl⟩ := List.mem_map.mp hleaf
    exact ⟨c, x, hx, hc, leaf, hin, hmem⟩
  · intro ⟨c', x', hx', hc', leaf, hleaf, hmem⟩
    obtain rfl := covers_unique h.root_ascending hc hc'
    obtain rfl := Option.some.inj (hx.symm.trans hx')
    obtain ⟨tail, htail, hlater⟩ := @route_flatMap Nat Nat _ Htree.continued _ _ _ _
      (fun x hx => h.nodeEntries_cons hx) h.indexed.ascending _ _ hc hx
    obtain ⟨y, hy, hmem'⟩ := h.indexed.mem_route he hname
    rw [leafTable, htail] at hy
    rcases List.mem_append.mp hy with hy | hy
    · exact ⟨y.2, List.mem_map_of_mem hy, hmem'⟩
    · -- it cannot be under a later node as well
      have hlt := (List.getElem?_eq_some_iff.mp hx).1
      have hsplit : fs.leafTable dir root =
          ((Htree.entries root Htree.rootCountOffset).take c).flatMap (fs.nodeEntries dir) ++
            (fs.nodeEntries dir x ++
              ((Htree.entries root Htree.rootCountOffset).drop (c + 1)).flatMap
                (fs.nodeEntries dir)) := by
        obtain ⟨-, rfl⟩ := List.getElem?_eq_some_iff.mp hx
        rw [← List.flatMap_cons, ← List.drop_eq_getElem_cons hlt, ← List.flatMap_append,
          List.take_append_drop, leafTable]
      have hleaf : leaf.2 ∈ (fs.nodeEntries dir x).map Prod.snd := by
        rw [map_snd_nodeEntries]
        exact List.mem_map_of_mem hleaf
      have hdistinct := h.distinct
      rw [hsplit, List.map_append, List.map_append] at hdistinct
      have hne := (List.nodup_append.mp (List.nodup_append.mp hdistinct).2.1).2.2
        _ hleaf _ (List.mem_map_of_mem (hlater hy))
      obtain ⟨z, hz, hzleaf⟩ := List.mem_map.mp hleaf
      have hzin : z ∈ fs.leafTable dir root := by
        rw [hsplit]
        exact List.mem_append_right _ (List.mem_append_left _ hz)
      have hyin : y ∈ fs.leafTable dir root := by
        rw [hsplit]
        exact List.mem_append_right _ (List.mem_append_right _ (hlater hy))
      obtain ⟨-, -, -, hlive⟩ := mem_listing_iff.mp he
      exact absurd (h.indexed.listed.block_unique hlive (hzleaf ▸ (h.indexed.leaves z hzin).2.1)
        (h.indexed.leaves y hyin).2.1 hmem hmem') hne

/-- In a directory with a valid index of two levels, `lookup` answers what the linear search finds
    exactly when the name, if the directory has it, is in a leaf under the interior node that
    covers its hash. -/
theorem lookup_twoLevel_iff {name : List UInt8} (hname : name ∉ dots) :
    (∃ entries, fs.readDir dir = .ok entries ∧
        fs.lookup dir name =
          .ok ((entries.find? fun e => e.name == name).map DirEntry.inode)) ↔
      ∀ e ∈ fs.listing dir, e.name = name → fs.UnderCovering dir root e := by
  obtain ⟨c, x, hx, hc, heq⟩ := h.lookupIndexed_eq name
  have hread := readDir_listed h.indexed.listed
  have hsub : fs.nodeEntries dir x ⊆ fs.leafTable dir root := fun y hy =>
    List.mem_flatMap.mpr ⟨x, List.mem_of_getElem? hx, hy⟩
  have hagree := followChain_agrees_iff h.indexed.listed
    (h.indexed.routed_leaves (List.Subset.trans (@route_subset _ _ _ Htree.continued
      (fs.hashIn root name) _) hsub)) name
  have hlookup : ∀ answer, fs.lookup dir name = .ok answer ↔
      fs.lookupIndexed dir name = .ok (some answer) := by
    intro answer
    have hmapped := heq
    rw [followChain_mapped fun k hk => ?_] at hmapped
    · rw [lookup_of_claims h.flag hmapped, hmapped]
      exact ⟨fun hans => congrArg (Except.ok ∘ some) (Except.ok.inj hans),
        fun hans => congrArg Except.ok (Option.some.inj (Except.ok.inj hans))⟩
    · obtain ⟨y, hy, rfl⟩ := List.mem_map.mp hk
      obtain ⟨-, hblock, hleaf⟩ := h.indexed.leaves y (hsub (route_subset hy))
      exact ⟨h.indexed.listed.readable _ hblock, hleaf⟩
  constructor
  · intro ⟨entries, hentries, hans⟩ e he hename
    obtain rfl := Except.ok.inj (hread.symm.trans hentries)
    rw [hlookup, heq] at hans
    have hfound := hagree.mp hans e he hename
    subst hename
    exact (h.mem_searched_iff he hname hx hc).mp hfound
  · intro hall
    refine ⟨_, hread, (hlookup _).mpr (heq.trans (hagree.mpr fun e he hename => ?_))⟩
    subst hename
    exact (h.mem_searched_iff he hname hx hc).mpr (hall e he rfl)

end TwoLevel

/-! ## Any index -/

/-- Entry `i` of an index block is in the block. -/
def HasEntry (node : List UInt8) (offset i : Nat) : Prop :=
  offset + i * Htree.entryLen + Htree.entryLen ≤ node.length

/-- From entry `i` of an index block on, the chain of leaves comes to a hole, or to a block that
    holds the entry, before it ends. -/
inductive Arrives (fs : Filesystem) (dir : Inode) (node : List UInt8) (offset : Nat)
    (e : DirEntry) : (i : Nat) → Prop
  | hole {i : Nat} (hin : HasEntry node offset i)
      (hblock : fs.dirBlock dir (Htree.entryAt node offset i).2 = .ok none) :
      Arrives fs dir node offset e i
  | here {i : Nat} {entries : List DirEntry} {found : DirEntry} (hin : HasEntry node offset i)
      (hblock : fs.dirBlock dir (Htree.entryAt node offset i).2 = .ok (some entries))
      (hfound : entries.find? (fun x => x.inode != 0 && x.name == e.name) = some found)
      (hsame : found.inode = e.inode) : Arrives fs dir node offset e i
  | next {i : Nat} {entries : List DirEntry} (hin : HasEntry node offset i)
      (hblock : fs.dirBlock dir (Htree.entryAt node offset i).2 = .ok (some entries))
      (habsent : ∀ x ∈ entries, x.inode ≠ 0 → x.name ≠ e.name)
      (hlt : i + 1 < Htree.count node offset) (hnext : HasEntry node offset (i + 1))
      (hodd : Htree.continued (Htree.entryAt node offset (i + 1)).1 = true)
      (h : Arrives fs dir node offset e (i + 1)) : Arrives fs dir node offset e i

/-- The chain that starts at the entry that covers a hash. -/
def Leads (fs : Filesystem) (dir : Inode) (node : List UInt8) (offset hash : Nat)
    (e : DirEntry) : Prop :=
  ∃ c, Htree.find node offset hash = .ok c ∧ Arrives fs dir node offset e c

/-- What the search comes to in an index, whatever its levels and its hash: the chain in the root,
    or that in the one node under it, comes to a hole or to the entry; or there is no such node. -/
def Recovers (fs : Filesystem) (dir : Inode) (root : List UInt8) (e : DirEntry) : Prop :=
  let hash := fs.hashIn root e.name
  if Htree.indirectLevels root = 0 then fs.Leads dir root Htree.rootCountOffset hash e
  else ∃ c, Htree.find root Htree.rootCountOffset hash = .ok c ∧
    HasEntry root Htree.rootCountOffset c ∧
    let child := (Htree.entryAt root Htree.rootCountOffset c).2
    (fs.resolveBlock dir child = .ok none ∨
      ∃ physical node, fs.resolveBlock dir child = .ok (some physical) ∧
        fs.readBlock physical = .ok node ∧
        ∀ offset, Htree.countOffset node fs.blockSize = some offset →
          fs.Leads dir node offset hash e)

/-- A search by hash gives the index up, or finds the entry. -/
def Answers (e : DirEntry) (result : Except Failure (Option (Option Nat))) : Prop :=
  result = .ok none ∨ result = .ok (some (some e.inode))

theorem not_answers_error {e : DirEntry} {f : Failure} : ¬ Answers e (.error f) := by
  intro h
  rcases h with h | h
  · cases h
  · cases h

theorem not_answers_absent {e : DirEntry} : ¬ Answers e (.ok (some none)) := by
  intro h
  rcases h with h | h
  · cases h
  · cases h

theorem entry_of_hasEntry {node : List UInt8} {offset i : Nat} (h : HasEntry node offset i) :
    Htree.entry node offset i = .ok (Htree.entryAt node offset i) := by
  rw [Htree.entry, panicIf, if_neg (Nat.not_lt.mpr h)]
  rfl

theorem entry_of_not_hasEntry {node : List UInt8} {offset i : Nat}
    (h : ¬ HasEntry node offset i) : Htree.entry node offset i = .error .panicked := by
  rw [Htree.entry, panicIf, if_pos (Nat.not_le.mp h)]
  rfl

theorem followLeaves_answers_iff {dir : Inode} {node : List UInt8} {offset : Nat}
    {e : DirEntry} : ∀ (fuel i : Nat), i < Htree.count node offset →
      Htree.count node offset ≤ i + fuel →
      (Answers e (fs.followLeaves dir e.name node offset fuel i) ↔
        fs.Arrives dir node offset e i)
  | 0, i, hi, hfuel => absurd hfuel (by omega)
  | fuel + 1, i, hi, hfuel => by
    rw [followLeaves_succ]
    by_cases hin : HasEntry node offset i
    case neg =>
      rw [entry_of_not_hasEntry hin]
      refine iff_of_false not_answers_error fun harrives => ?_
      cases harrives with
      | hole h | here h | next h => exact hin h
    rw [entry_of_hasEntry hin]
    dsimp only [bind, Except.bind]
    match hblock : fs.dirBlock dir (Htree.entryAt node offset i).2 with
    | .error f =>
      refine iff_of_false not_answers_error fun harrives => ?_
      cases harrives with
      | hole _ h | here _ h | next _ h => exact nomatch hblock.symm.trans h
    | .ok none => exact iff_of_true (Or.inl rfl) (.hole hin hblock)
    | .ok (some entries) =>
      dsimp only
      cases hfind : entries.find? (fun x => x.inode != 0 && x.name == e.name) with
      | some found =>
        constructor
        · intro hanswers
          rcases hanswers with h | h
          · cases h
          · exact .here hin hblock hfind (Option.some.inj (Option.some.inj (Except.ok.inj h)))
        · intro harrives
          cases harrives with
          | hole _ h => exact nomatch hblock.symm.trans h
          | here _ h hfound hsame =>
            obtain rfl := Option.some.inj (Except.ok.inj (hblock.symm.trans h))
            obtain rfl := Option.some.inj (hfind.symm.trans hfound)
            exact Or.inr (congrArg (fun n => Except.ok (some (some n))) hsame)
          | next _ h habsent =>
            obtain rfl := Option.some.inj (Except.ok.inj (hblock.symm.trans h))
            have hmatch : found.inode ≠ 0 ∧ found.name = e.name := by
              simpa using List.find?_some hfind
            exact absurd hmatch.2 (habsent found (List.mem_of_find?_eq_some hfind) hmatch.1)
      | none =>
        have habsent : ∀ x ∈ entries, x.inode ≠ 0 → x.name ≠ e.name := by
          simpa using List.find?_eq_none.mp hfind
        -- the chain goes on, or the name is taken for absent
        have hstep : fs.Arrives dir node offset e i ↔
            i + 1 < Htree.count node offset ∧ HasEntry node offset (i + 1) ∧
              Htree.continued (Htree.entryAt node offset (i + 1)).1 = true ∧
              fs.Arrives dir node offset e (i + 1) := by
          constructor
          · intro harrives
            cases harrives with
            | hole _ h => exact nomatch hblock.symm.trans h
            | here _ h hfound =>
              obtain rfl := Option.some.inj (Except.ok.inj (hblock.symm.trans h))
              exact nomatch hfind.symm.trans hfound
            | next _ _ _ hlt hnext hodd hrest => exact ⟨hlt, hnext, hodd, hrest⟩
          · intro ⟨hlt, hnext, hodd, hrest⟩
            exact .next hin hblock habsent hlt hnext hodd hrest
        rw [hstep]
        dsimp only
        by_cases hlast : Htree.count node offset ≤ i + 1
        · rw [if_pos hlast]
          exact iff_of_false not_answers_absent fun h => absurd h.1 (Nat.not_lt.mpr hlast)
        · rw [if_neg hlast]
          have hlt := Nat.not_le.mp hlast
          by_cases hnext : HasEntry node offset (i + 1)
          · rw [entry_of_hasEntry hnext]
            dsimp only
            by_cases hodd : (Htree.entryAt node offset (i + 1)).1 % 2 = 0
            · rw [if_pos hodd]
              refine iff_of_false not_answers_absent fun h => ?_
              rw [Htree.continued, decide_eq_true_iff, hodd] at h
              exact absurd h.2.2.1 (by decide)
            · have hcont : Htree.continued (Htree.entryAt node offset (i + 1)).1 = true := by
                rw [Htree.continued, decide_eq_true_iff]
                omega
              rw [if_neg hodd, followLeaves_answers_iff fuel (i + 1) hlt (by omega)]
              exact ⟨fun h => ⟨hlt, hnext, hcont, h⟩, fun h => h.2.2.2⟩
          · rw [entry_of_not_hasEntry hnext]
            exact iff_of_false not_answers_error fun h => hnext h.2.1

theorem searchNode_answers_iff {dir : Inode} {node : List UInt8} {offset hash : Nat}
    {e : DirEntry} : Answers e (fs.searchNode dir e.name node offset hash) ↔
      fs.Leads dir node offset hash e := by
  rw [searchNode, Leads]
  cases hfind : Htree.find node offset hash with
  | error f =>
    refine iff_of_false not_answers_error ?_
    rintro ⟨c, hc, -⟩
    cases hc
  | ok c =>
    have hiff := @followLeaves_answers_iff fs dir node offset e _ c (Htree.find_lt hfind)
      (Nat.le_add_left _ c)
    refine hiff.trans ⟨fun h => ⟨c, rfl, h⟩, ?_⟩
    rintro ⟨c', hc, h⟩
    obtain rfl := Except.ok.inj hc
    exact h

/-- An index this code does not know: of more than one level under its root, or of another hash
    than the three, signed or not. -/
structure Unknown (fs : Filesystem) (dir : Inode) (root : List UInt8) : Prop where
  flag : Claims dir
  listed : fs.Listed dir
  rootRead : ∃ physical, fs.resolveBlock dir 0 = .ok (some physical) ∧
    fs.readBlock physical = .ok root
  isRoot : Htree.countOffset root fs.blockSize = some Htree.rootCountOffset
  unknown : 1 < Htree.indirectLevels root ∨
    HashVersion.teaUnsigned < Htree.rootHashVersion root

theorem lookup_answers_iff {dir : Inode} (hflag : Claims dir) (hlisted : fs.Listed dir)
    {e : DirEntry} (he : e ∈ fs.listing dir) :
    fs.lookup dir e.name = .ok (some e.inode) ↔ Answers e (fs.lookupIndexed dir e.name) := by
  have hlinear : fs.lookupLinear dir e.name = .ok (some e.inode) := by
    rw [lookupLinear_listed hlisted, inodeOf_of_mem hlisted he]
  unfold lookup
  rw [if_pos (show dir.flags &&& IFlags.index ≠ 0 from hflag)]
  match fs.lookupIndexed dir e.name with
  | .error f => exact iff_of_false nofun not_answers_error
  | .ok none => exact iff_of_true hlinear (Or.inl rfl)
  | .ok (some answer) =>
    constructor
    · intro h
      exact Or.inr (congrArg (Except.ok ∘ some) (Except.ok.inj h))
    · intro h
      rcases h with h | h
      · cases h
      · exact congrArg Except.ok (Option.some.inj (Except.ok.inj h))

/-- `lookup` finds a name that is there through an index this code does not know exactly when the
    search it makes all the same comes to a hole, to no node, or to the name. -/
theorem lookup_unknown_iff {dir : Inode} {root : List UInt8} (h : fs.Unknown dir root)
    {e : DirEntry} (he : e ∈ fs.listing dir) :
    fs.lookup dir e.name = .ok (some e.inode) ↔ fs.Recovers dir root e := by
  obtain ⟨physical, hres, hread⟩ := h.rootRead
  rw [lookup_answers_iff h.flag h.listed he, lookupIndexed, hres, Recovers]
  dsimp only [bind, Except.bind]
  rw [hread]
  dsimp only
  rw [if_neg (fun hne => hne h.isRoot)]
  by_cases hzero : Htree.indirectLevels root = 0
  · rw [if_neg (by omega), if_pos hzero]
    exact searchNode_answers_iff
  · rw [if_pos (Nat.pos_of_ne_zero hzero), if_neg hzero]
    cases Htree.find root Htree.rootCountOffset (fs.hashIn root e.name) with
    | error f =>
      refine iff_of_false not_answers_error ?_
      rintro ⟨c, hc, -⟩
      cases hc
    | ok c =>
      dsimp only
      have hone : ∀ {p : Nat → Prop},
          (∃ c', (.ok c : Except Failure Nat) = .ok c' ∧ p c') ↔ p c := by
        intro p
        refine ⟨?_, fun hp => ⟨c, rfl, hp⟩⟩
        rintro ⟨_, heq, hp⟩
        exact Except.ok.inj heq ▸ hp
      rw [hone]
      by_cases hin : HasEntry root Htree.rootCountOffset c
      · rw [entry_of_hasEntry hin]
        dsimp only
        generalize (Htree.entryAt root Htree.rootCountOffset c).2 = child
        rcases fs.resolveBlock dir child with f | _ | physical
        · refine iff_of_false not_answers_error ?_
          rintro ⟨-, hchild | ⟨_, _, hchild, -⟩⟩
          · cases hchild
          · cases hchild
        · exact iff_of_true (Or.inl rfl) ⟨hin, Or.inl rfl⟩
        · dsimp only
          cases hnode : fs.readBlock physical with
          | error f =>
            refine iff_of_false not_answers_error ?_
            rintro ⟨-, hchild | ⟨p, node, hchild, hother, -⟩⟩
            · cases hchild
            · obtain rfl := Option.some.inj (Except.ok.inj hchild)
              cases hnode.symm.trans hother
          | ok node =>
            dsimp only
            have hside : (HasEntry root Htree.rootCountOffset c ∧
                ((.ok (some physical) : Except Failure (Option Nat)) = .ok none ∨
                  ∃ p other, (.ok (some physical) : Except Failure (Option Nat)) = .ok (some p) ∧
                    fs.readBlock p = .ok other ∧
                    ∀ offset, Htree.countOffset other fs.blockSize = some offset →
                      fs.Leads dir other offset (fs.hashIn root e.name) e)) ↔
                ∀ offset, Htree.countOffset node fs.blockSize = some offset →
                  fs.Leads dir node offset (fs.hashIn root e.name) e := by
              constructor
              · rintro ⟨-, hchild | ⟨p, other, hchild, hother, hleads⟩⟩
                · cases hchild
                · obtain rfl := Option.some.inj (Except.ok.inj hchild)
                  obtain rfl := Except.ok.inj (hnode.symm.trans hother)
                  exact hleads
              · intro hleads
                exact ⟨hin, Or.inr ⟨physical, node, rfl, hnode, hleads⟩⟩
            rw [hside]
            cases Htree.countOffset node fs.blockSize with
            | none =>
              refine iff_of_true (Or.inl rfl) fun offset hoffset => ?_
              cases hoffset
            | some found =>
              refine searchNode_answers_iff.trans ⟨fun hleads offset hoffset => ?_, fun h => h _ rfl⟩
              exact Option.some.inj hoffset ▸ hleads
      · rw [entry_of_not_hasEntry hin]
        exact iff_of_false not_answers_error fun hand => hin hand.1

/-! ### A run of equal hashes over two nodes -/

/-- 16 blocks. Blocks 6 and 7 hold the names "bw9" and "fw9", of the same hash; block 8 is an index
    root over the interior nodes in blocks 9 and 10, one leaf under each. -/
def deepImage : Device := .ofChunks 16384
  [(6 * 1024, [12, 0, 0, 0, 0, 4, 3, 1, 0x62, 0x77, 0x39]),
    (7 * 1024, [13, 0, 0, 0, 0, 4, 3, 1, 0x66, 0x77, 0x39]),
    (8 * 1024, [2, 0, 0, 0, 12, 0, 1, 2, 0x2e, 0, 0, 0, 2, 0, 0, 0, 0xf4, 3, 2, 2, 0x2e, 0x2e]),
    (8 * 1024 + 29, [8, 1, 0, 124, 0, 2, 0, 1, 0, 0, 0, 0x3d, 0x0d, 0x28, 0x7e, 2]),
    (9 * 1024, [0, 0, 0, 0, 0, 4, 0, 0, 127, 0, 1, 0, 3]),
    (10 * 1024, [0, 0, 0, 0, 0, 4, 0, 0, 127, 0, 1, 0, 4])]

def deepFs : Filesystem := { indexFs [] with device := deepImage }

def deepDir : Inode where
  mode := 0x41ed
  flags := IFlags.index
  size := 5120
  block := [8, 0, 0, 0, 9, 0, 0, 0, 10, 0, 0, 0, 6, 0, 0, 0, 7] ++ List.replicate 43 0

def deepRoot : List UInt8 := Lib.Store.window deepImage.bytes (8 * 1024) 1024

theorem deepDir_twoLevel : deepFs.TwoLevel deepDir deepRoot where
  flag := by decide
  levels := by decide +kernel
  holds := by decide +kernel
  nodes := by
    intro x hx
    have hentries : Htree.entries deepRoot Htree.rootCountOffset =
        [(0, 1), (0x7e280d3d, 2)] := by decide +kernel
    rw [hentries] at hx
    rcases List.mem_cons.mp hx with rfl | hx
    · have hres : deepFs.resolveBlock deepDir 1 = .ok (some 9) := by decide +kernel
      exact ⟨9, hres, readBlock_nodeOf hres (by decide +kernel), by decide +kernel,
        by decide +kernel⟩
    · obtain rfl := List.mem_singleton.mp hx
      have hres : deepFs.resolveBlock deepDir 2 = .ok (some 10) := by decide +kernel
      exact ⟨10, hres, readBlock_nodeOf hres (by decide +kernel), by decide +kernel,
        by decide +kernel⟩
  indexed := {
    listed := {
      isDir := by decide
      blockSize := by decide
      readable := by decide +kernel
      named := by decide +kernel
      unique := by decide +kernel }
    rootRead := ⟨8, by decide +kernel,
    readBlock_ok_iff.mpr ⟨by decide, by decide, by decide, rfl⟩⟩
    isRoot := by decide +kernel
    version := by decide +kernel
    rootNames := by decide +kernel
    ascending := by decide +kernel
    leaves := by decide +kernel
    stored := by decide +kernel }
  distinct := by decide +kernel

/-- The first of the two names is found as the linear search finds it. -/
theorem lookup_twoLevel_first : [0x62, 0x77, 0x39] ∉ dots ∧
    ∃ entries, deepFs.readDir deepDir = .ok entries ∧
      deepFs.lookup deepDir [0x62, 0x77, 0x39] =
        .ok ((entries.find? fun e => e.name == [0x62, 0x77, 0x39]).map DirEntry.inode) := by
  have hname : [0x62, 0x77, 0x39] ∉ dots := by decide
  refine ⟨hname, (lookup_twoLevel_iff deepDir_twoLevel hname).mpr fun e he heq => ?_⟩
  have hlisted : ∀ e ∈ deepFs.listing deepDir, e.name = [0x62, 0x77, 0x39] →
      e ∈ deepFs.entriesOf deepDir 3 := by decide +kernel
  refine ⟨0, (0, 1), by decide +kernel, ?_, (0, 3), by decide +kernel, hlisted e he heq⟩
  rw [heq]
  decide +kernel

/-- The second is not, in the next node. -/
theorem lookup_straddling : ¬ ∀ (fs : Filesystem) (dir : Inode) (root name : List UInt8),
    fs.TwoLevel dir root → name ∉ dots →
    ∃ entries, fs.readDir dir = .ok entries ∧
      fs.lookup dir name =
        .ok ((entries.find? fun e => e.name == name).map DirEntry.inode) := by
  intro hall
  obtain ⟨entries, hread, hlookup⟩ := hall deepFs deepDir deepRoot [0x66, 0x77, 0x39]
    deepDir_twoLevel (by decide)
  obtain rfl := Except.ok.inj ((readDir_listed deepDir_twoLevel.indexed.listed).symm.trans hread)
  have hfound : inodeOf [0x66, 0x77, 0x39] (deepFs.listing deepDir) = some 13 := by decide +kernel
  have hmissed : deepFs.lookup deepDir [0x66, 0x77, 0x39] = .ok none := by decide +kernel
  rw [hmissed] at hlookup
  exact nomatch (Except.ok.inj hlookup).trans hfound

/-! ### An unknown hash and a third level -/

/-- 16 blocks. Blocks 6 and 7 hold the names "bw9" and "fw9"; block 8 is an index root with a hash
    of version 6, whose second entry continues the first, and block 9 one of two indirect levels,
    over the interior nodes in blocks 10 and 11. -/
def strangeImage : Device := .ofChunks 16384
  [(6 * 1024, [12, 0, 0, 0, 0, 4, 3, 1, 0x62, 0x77, 0x39]),
    (7 * 1024, [13, 0, 0, 0, 0, 4, 3, 1, 0x66, 0x77, 0x39]),
    (8 * 1024, [2, 0, 0, 0, 12, 0, 1, 2, 0x2e, 0, 0, 0, 2, 0, 0, 0, 0xf4, 3, 2, 2, 0x2e, 0x2e]),
    (8 * 1024 + 28, [6, 8, 0, 0, 124, 0, 2, 0, 1, 0, 0, 0, 215, 155, 238, 13, 2]),
    (9 * 1024, [2, 0, 0, 0, 12, 0, 1, 2, 0x2e, 0, 0, 0, 2, 0, 0, 0, 0xf4, 3, 2, 2, 0x2e, 0x2e]),
    (9 * 1024 + 28, [0, 8, 2, 0, 124, 0, 1, 0, 1]),
    (10 * 1024, [0, 0, 0, 0, 0, 4, 0, 0, 127, 0, 1, 0, 2]),
    (11 * 1024, [0, 0, 0, 0, 0, 4, 0, 0, 127, 0, 1, 0, 3])]

def strangeFs : Filesystem := { indexFs [] with device := strangeImage }

/-- The directory of unknown hash, two leaves under its root. -/
def hashedDir : Inode where
  mode := 0x41ed
  flags := IFlags.index
  size := 3072
  block := [8, 0, 0, 0, 7, 0, 0, 0, 6] ++ List.replicate 51 0

/-- The directory of three levels. -/
def tallDir : Inode where
  mode := 0x41ed
  flags := IFlags.index
  size := 4096
  block := [9, 0, 0, 0, 10, 0, 0, 0, 11, 0, 0, 0, 6] ++ List.replicate 47 0

def hashedRoot : List UInt8 := Lib.Store.window strangeImage.bytes (8 * 1024) 1024

def tallRoot : List UInt8 := Lib.Store.window strangeImage.bytes (9 * 1024) 1024

def entry12 : DirEntry := { inode := 12, recLen := 1024, fileType := 1, name := [0x62, 0x77, 0x39] }

def entry13 : DirEntry := { inode := 13, recLen := 1024, fileType := 1, name := [0x66, 0x77, 0x39] }

/-- What the two directories hold. -/
theorem strange_directories : ∀ dir ∈ [hashedDir, tallDir],
    (∀ k < strangeFs.dirBlocks dir.size, (strangeFs.dirBlock dir k).isOk = true) ∧
      (∀ k < strangeFs.dirBlocks dir.size, ∀ e ∈ strangeFs.entriesOf dir k,
        e.inode ≠ 0 → e.name ≠ []) ∧
      ((strangeFs.listing dir).map DirEntry.name).Nodup ∧ entry12 ∈ strangeFs.listing dir := by
  decide +kernel

theorem strange_listed {dir : Inode} (h : dir ∈ [hashedDir, tallDir]) : strangeFs.Listed dir := by
  obtain ⟨hread, hnamed, hunique, -⟩ := strange_directories dir h
  have hisDir : ∀ dir ∈ [hashedDir, tallDir], dir.isDir = true := by decide
  exact ⟨hisDir dir h, by decide, hread, hnamed, hunique⟩

/-- The two roots, and where the search for the name comes to in each. -/
theorem strange_roots :
    ((strangeFs.resolveBlock hashedDir 0 = .ok (some 8) ∧
      Htree.countOffset hashedRoot strangeFs.blockSize = some Htree.rootCountOffset ∧
      HashVersion.teaUnsigned < Htree.rootHashVersion hashedRoot) ∧
      Htree.indirectLevels hashedRoot = 0 ∧
      Htree.count hashedRoot Htree.rootCountOffset = 2 ∧
      Htree.entryAt hashedRoot Htree.rootCountOffset 0 = (0, 1) ∧
      Htree.entryAt hashedRoot Htree.rootCountOffset 1 = (233741271, 2) ∧
      Htree.find hashedRoot Htree.rootCountOffset (strangeFs.hashIn hashedRoot entry12.name) =
        .ok 0 ∧
      strangeFs.dirBlock hashedDir 1 = .ok (some [entry13]) ∧
      strangeFs.dirBlock hashedDir 2 = .ok (some [entry12])) ∧
    (strangeFs.resolveBlock tallDir 0 = .ok (some 9) ∧
      Htree.countOffset tallRoot strangeFs.blockSize = some Htree.rootCountOffset ∧
      1 < Htree.indirectLevels tallRoot) ∧ strangeFs.lookup tallDir entry12.name = .ok none := by
  decide +kernel

theorem hashedDir_unknown : strangeFs.Unknown hashedDir hashedRoot := by
  obtain ⟨⟨⟨hres, hroot, hversion⟩, -⟩, -⟩ := strange_roots
  exact ⟨by decide, strange_listed List.mem_cons_self,
    ⟨8, hres, readBlock_ok_iff.mpr ⟨by decide, by decide, by decide, rfl⟩⟩, hroot, Or.inr hversion⟩

theorem tallDir_unknown : strangeFs.Unknown tallDir tallRoot := by
  obtain ⟨-, ⟨hres, hroot, hlevels⟩, -⟩ := strange_roots
  exact ⟨by decide, strange_listed (List.mem_cons_of_mem _ List.mem_cons_self),
    ⟨9, hres, readBlock_ok_iff.mpr ⟨by decide, by decide, by decide, rfl⟩⟩, hroot, Or.inl hlevels⟩

/-- The search comes to the leaf that does not hold the name, and on to the one that does. -/
theorem lookup_unknown_hash : entry12 ∈ strangeFs.listing hashedDir ∧
    strangeFs.lookup hashedDir entry12.name = .ok (some entry12.inode) := by
  obtain ⟨-, -, -, hmem⟩ := strange_directories hashedDir List.mem_cons_self
  refine ⟨hmem, (lookup_unknown_iff hashedDir_unknown hmem).mpr ?_⟩
  have hroot := strange_roots.1.2
  have hcount := hroot.2.1
  have hzero := hroot.2.2.1
  have hone := hroot.2.2.2.1
  have hin : ∀ i < 2, HasEntry hashedRoot Htree.rootCountOffset i := by
    intro i hi
    rw [HasEntry, hashedRoot, Lib.Store.length_window, Htree.entryLen, Htree.rootCountOffset]
    omega
  have hleaf : strangeFs.dirBlock hashedDir (Htree.entryAt hashedRoot Htree.rootCountOffset 0).2 =
      .ok (some [entry13]) := by
    rw [hzero]
    exact hroot.2.2.2.2.2.1
  have hnext : strangeFs.dirBlock hashedDir (Htree.entryAt hashedRoot Htree.rootCountOffset 1).2 =
      .ok (some [entry12]) := by
    rw [hone]
    exact hroot.2.2.2.2.2.2
  have hodd : Htree.continued (Htree.entryAt hashedRoot Htree.rootCountOffset 1).1 = true := by
    rw [hone]
    rfl
  have hlt : 0 + 1 < Htree.count hashedRoot Htree.rootCountOffset := by
    rw [hcount]
    decide
  rw [Recovers, if_pos hroot.1]
  exact ⟨0, hroot.2.2.2.2.1, .next (hin 0 (by decide)) hleaf (by decide) hlt (hin 1 (by decide)) hodd
    (.here (hin 1 (by decide)) hnext rfl rfl)⟩

/-- Under a third level the nodes are taken for leaves, and the name for absent. -/
theorem lookup_unknown_levels : ¬ ∀ (fs : Filesystem) (dir : Inode) (root : List UInt8),
    fs.Unknown dir root → ∀ e ∈ fs.listing dir,
      fs.lookup dir e.name = .ok (some e.inode) := by
  intro hall
  obtain ⟨-, -, -, hmem⟩ :=
    strange_directories tallDir (List.mem_cons_of_mem _ List.mem_cons_self)
  have hfound := hall strangeFs tallDir tallRoot tallDir_unknown entry12 hmem
  rw [strange_roots.2.2] at hfound
  cases hfound

end Filesystem

end MkfsExt4
