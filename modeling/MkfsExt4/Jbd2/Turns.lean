/-
  Recovery one turn at a time, on any log.

  `passFrom` is the loop of `passTurn`: read a header block, act on it, go on or stop.
  `nextRead` is the pure part of a turn, where the next header block is read, and `visits`
  the log positions a pass reads headers from. `Logs j m W` says that `m` makes exactly
  the block writes `W`, and that a device with the same journal blocks gets the same
  result and the same writes; it is closed under sequencing (`Logs.bind`), and recovery
  meets it pass by pass (`logs_pass`). Nothing here asks for a well-formed log.
-/
import MkfsExt4.Jbd2.Replay

namespace MkfsExt4.Jbd2

open Lib.Store Lib.Endian Lib.Hoare

/-! ## Reads and writes as outcomes -/

theorem exec_get (fs : Filesystem) : exec (get : FsM Filesystem) fs = (.ok fs, fs) := rfl

theorem exec_readBlock_cases (b : Nat) (fs : Filesystem) :
    (∃ e, ∀ t : Filesystem, t.dev.size = fs.dev.size → t.blockSize = fs.blockSize →
      t.blocksCount = fs.blocksCount → exec (readBlock b) t = (.error e, t)) ∨
    ∀ t : Filesystem, t.dev.size = fs.dev.size → t.blockSize = fs.blockSize →
      t.blocksCount = fs.blocksCount → exec (readBlock b) t = (.ok (t.block b), t) := by
  unfold readBlock
  by_cases hb : fs.blocksCount ≤ b
  · left
    refine ⟨.corrupt "block pointer"
      s!"block {b} is past the end of the {fs.blocksCount}-block filesystem",
      fun t _ _ hcount => ?_⟩
    rw [exec_bind, exec_get]
    simp only [hcount, if_pos hb]
    rfl
  by_cases hin : b * fs.blockSize + fs.blockSize ≤ fs.dev.size
  · right
    intro t hsize hbs hcount
    have hread : t.dev.readAt (b * t.blockSize) t.blockSize = .ok (t.block b) := by
      simp [Device.readAt, checkBounds, hsize, hbs, hin, bind, Except.bind, pure, Except.pure,
        Filesystem.block]
    rw [exec_bind, exec_get]
    simp only [hcount, if_neg hb, hread]
    rfl
  · left
    refine ⟨.outOfBounds (b * fs.blockSize) fs.blockSize fs.dev.size, fun t hsize hbs hcount => ?_⟩
    have hread : t.dev.readAt (b * t.blockSize) t.blockSize =
        .error (.outOfBounds (b * fs.blockSize) fs.blockSize fs.dev.size) := by
      simp [Device.readAt, checkBounds, hsize, hbs, hin, bind, Except.bind]
    rw [exec_bind, exec_get]
    simp only [hcount, if_neg hb, hread]
    rfl

theorem exec_writeBlock {b : Nat} {data : List UInt8} {fs : Filesystem}
    (hin : b * fs.blockSize + data.length ≤ fs.dev.size) :
    exec (writeBlock b data) fs = (.ok (), fs.put b data) := by
  obtain ⟨a, t, hx, rfl⟩ := exec_of_wp (@wp_writeBlock fs b data (fun _ t => t = fs.put b data) _
    hin rfl)
  exact hx

theorem exec_writeBlock_cases (b : Nat) (data : List UInt8) (fs : Filesystem) :
    (∃ e, ∀ t : Filesystem, t.dev.size = fs.dev.size → t.blockSize = fs.blockSize →
      exec (writeBlock b data) t = (.error e, t)) ∨
    ∀ t : Filesystem, t.dev.size = fs.dev.size → t.blockSize = fs.blockSize →
      exec (writeBlock b data) t = (.ok (), t.put b data) := by
  by_cases hin : b * fs.blockSize + data.length ≤ fs.dev.size
  · right
    intro t hsize hbs
    exact exec_writeBlock (by rwa [hsize, hbs])
  · left
    refine ⟨.outOfBounds (b * fs.blockSize) data.length fs.dev.size, fun t hsize hbs => ?_⟩
    have hwrite : t.dev.writeAt (b * t.blockSize) data =
        .error (.outOfBounds (b * fs.blockSize) data.length fs.dev.size) := by
      simp [Device.writeAt, checkBounds, hsize, hbs, hin, bind, Except.bind]
    unfold writeBlock
    rw [exec_bind, exec_get]
    simp only [hwrite]
    rfl

/-! ## One turn -/

namespace Journal

/-- What a pass does with a header block `buf`, read from just before `s.nextBlock`: the
    state it leaves, and the pass's outcome if this was its last turn. -/
def headerTurn (j : Journal) (replay : Bool) (s : PassState) (buf : List UInt8) :
    FsM (PassState × Option (Option String)) := do
  let nextCommit := s.nextCommit
  if getU32Be buf 0 ≠ jbd2Magic ∨ getU32Be buf 8 ≠ nextCommit then return (s, some none)
  else if getU32Be buf 4 = descriptorBlock then
    if replay && !j.blockTailOk buf then
      return (s, some (some
        s!"invalid checksum on a descriptor block of journal transaction {nextCommit}"))
    else do
      let s ← (tags j.header buf).foldlM (j.replayTag replay) s
      return (s, none)
  else if getU32Be buf 4 = commitBlock then
    return ({ s with nextCommit := wrappingAdd nextCommit 1 }, none)
  else if getU32Be buf 4 = revokeBlock then
    if replay then return (s, none)
    else
      match revokeRecords j.header buf with
      | .error e => return (s, some (some e))
      | .ok records => return (records.foldl revokeRecord s, none)
  else return (s, some none)

/-- One turn of the loop of a pass. -/
def passTurn (j : Journal) (replay : Bool) (s : PassState) :
    FsM (PassState × Option (Option String)) := do
  let buf ← j.read s.nextBlock
  j.headerTurn replay { s with nextBlock := j.wrap (s.nextBlock + 1) } buf

/-- The loop of a pass is its turns one after another. -/
theorem passFrom_succ (j : Journal) (finish : Nat) (replay : Bool) (fuel : Nat) (s : PassState) :
    j.passFrom finish replay (fuel + 1) s =
      if tidGeq s.nextCommit finish then pure (some (s, none))
      else j.passTurn replay s >>= fun x =>
        match x.2 with
        | some e => pure (some (x.1, e))
        | none => j.passFrom finish replay fuel x.1 := by
  rw [passFrom]
  by_cases hfin : tidGeq s.nextCommit finish = true
  · rw [if_pos hfin, if_pos hfin]
  rw [if_neg hfin, if_neg hfin]
  unfold passTurn
  rw [bind_assoc]
  congr 1
  funext buf
  unfold headerTurn
  dsimp only
  split
  · rw [pure_bind]
  split
  · split
    · rw [pure_bind]
    · rw [bind_assoc]
      simp only [pure_bind]
  split
  · rw [pure_bind]
  split
  · split
    · rw [pure_bind]
    · cases revokeRecords j.header buf <;> exact (pure_bind _ _).symm
  · rw [pure_bind]

/-! ## Positions -/

/-- The log position `n` blocks after `block`. -/
def skip (j : Journal) : Nat → Nat → Nat
  | 0, block => block
  | n + 1, block => j.skip n (j.wrap (block + 1))

/-- Where a header block `buf` at `pos`, a sequence number and a log position, leads a pass,
    unless the pass stops there. -/
def leads (j : Journal) (replay : Bool) (pos : Nat × Nat) (buf : List UInt8) : Option (Nat × Nat) :=
  let next := j.wrap (pos.2 + 1)
  if getU32Be buf 0 ≠ jbd2Magic ∨ getU32Be buf 8 ≠ pos.1 then none
  else if getU32Be buf 4 = descriptorBlock then
    if replay && !j.blockTailOk buf then none
    else some (pos.1, j.skip (tags j.header buf).length next)
  else if getU32Be buf 4 = commitBlock then some (wrappingAdd pos.1 1, next)
  else if getU32Be buf 4 = revokeBlock then
    if replay then some (pos.1, next)
    else
      match revokeRecords j.header buf with
      | .error _ => none
      | .ok _ => some (pos.1, next)
  else none

/-- Where the pass up to `finish` reads its next header block after `buf` at `pos`. -/
def nextRead (j : Journal) (finish : Nat) (replay : Bool) (pos : Nat × Nat) (buf : List UInt8) :
    Option (Nat × Nat) :=
  (j.leads replay pos buf).filter fun p => !tidGeq p.1 finish

/-- The place of a pass in the log. -/
def PassState.pos (s : PassState) : Nat × Nat := (s.nextCommit, s.nextBlock)

/-- The positions a pass from `s` on reads header blocks from, in turn. -/
def visits (j : Journal) (finish : Nat) (replay : Bool) :
    Nat → PassState → Filesystem → List (Nat × Nat)
  | 0, _, _ => []
  | fuel + 1, s, t =>
    if tidGeq s.nextCommit finish then []
    else s.pos :: match exec (j.passTurn replay s) t with
      | (.ok (s', none), t') => j.visits finish replay fuel s' t'
      | _ => []

theorem replayTag_pos (j : Journal) (replay : Bool) (s : PassState) (tag : Tag) :
    Returns (fun s' => s'.pos = (s.nextCommit, j.wrap (s.nextBlock + 1)))
      (j.replayTag replay s tag) := by
  unfold replayTag
  dsimp only
  split
  · exact returns_pure rfl
  split
  · exact returns_pure rfl
  refine returns_then fun data => ?_
  split
  · exact returns_pure rfl
  refine returns_then fun fs => ?_
  split
  · exact returns_pure rfl
  exact returns_then fun _ => returns_pure rfl

theorem replayTags_pos (j : Journal) (replay : Bool) (xs : List Tag) (s : PassState) :
    Returns (fun s' => s'.pos = (s.nextCommit, j.skip xs.length s.nextBlock))
      (xs.foldlM (j.replayTag replay) s) := by
  induction xs generalizing s with
  | nil => exact returns_pure rfl
  | cons x xs ih =>
    rw [List.foldlM_cons]
    refine returns_bind (j.replayTag_pos replay s x) fun s' hs' => ?_
    have hpos := Prod.mk.inj hs'
    rw [List.length_cons, skip, ← hpos.1, ← hpos.2]
    exact ih s'

/-- A header block leads where the turn that reads it goes. -/
theorem headerTurn_leads (j : Journal) (replay : Bool) (s : PassState) (buf : List UInt8) :
    Returns (fun x => j.leads replay s.pos buf = if x.2 = none then some x.1.pos else none)
      (j.headerTurn replay { s with nextBlock := j.wrap (s.nextBlock + 1) } buf) := by
  unfold headerTurn leads
  dsimp only [PassState.pos]
  by_cases hhead : getU32Be buf 0 ≠ jbd2Magic ∨ getU32Be buf 8 ≠ s.nextCommit
  · simp only [hhead, if_true]
    exact returns_pure rfl
  simp only [hhead, if_false]
  by_cases hdesc : getU32Be buf 4 = descriptorBlock
  · simp only [hdesc, if_true]
    by_cases htail : (replay && !j.blockTailOk buf) = true
    · simp only [htail, if_true]
      exact returns_pure rfl
    · simp only [htail]
      refine returns_bind (j.replayTags_pos replay _ _) fun s' hs' => returns_pure ?_
      rw [if_pos rfl]
      exact congrArg some hs'.symm
  simp only [hdesc, if_false]
  by_cases hcommit : getU32Be buf 4 = commitBlock
  · simp only [hcommit, if_true]
    exact returns_pure rfl
  simp only [hcommit, if_false]
  by_cases hrevoke : getU32Be buf 4 = revokeBlock
  · simp only [hrevoke, if_true]
    cases replay with
    | true => exact returns_pure rfl
    | false =>
      cases revokeRecords j.header buf with
      | error e => exact returns_pure rfl
      | ok records =>
        obtain ⟨hc, hb, _⟩ := foldl_revokeRecord records
          { s with nextBlock := j.wrap (s.nextBlock + 1) }
        refine returns_pure ?_
        dsimp only
        rw [hc, hb, if_pos rfl]
        rfl
  · simp only [hrevoke, if_false]
    exact returns_pure rfl

end Journal

/-! ## What a command writes, and what it reads of the journal -/

/-- Block writes: a block and what goes there. -/
abbrev Writes := List (Nat × List UInt8)

/-- `fs` with the writes made in turn. -/
def Filesystem.apply (fs : Filesystem) (ws : Writes) : Filesystem :=
  ws.foldl (fun fs w => fs.put w.1 w.2) fs

theorem apply_append (fs : Filesystem) (ws vs : Writes) :
    fs.apply (ws ++ vs) = (fs.apply ws).apply vs :=
  List.foldl_append

theorem apply_eq (fs : Filesystem) (ws : Writes) :
    fs.apply ws = { fs with
      dev := { fs.dev with
        bytes := overlays fs.dev.bytes (ws.map fun w => (w.1 * fs.blockSize, w.2)) } } := by
  induction ws generalizing fs with
  | nil => rfl
  | cons w ws ih =>
    show (fs.put w.1 w.2).apply ws = _
    rw [ih]
    rfl

/-- The first writes made once more before all of them change nothing. -/
theorem apply_take (fs : Filesystem) (ws : Writes) (k : Nat) :
    (fs.apply (ws.take k)).apply ws = fs.apply ws := by
  have htake := overlays_take fs.dev.bytes (ws.map fun w => (w.1 * fs.blockSize, w.2)) k
  rw [← List.map_take] at htake
  rw [apply_eq (fs.apply _), apply_eq fs ws, apply_eq fs (ws.take k)]
  dsimp only
  rw [htake]

theorem apply_fields (fs : Filesystem) (ws : Writes) :
    (fs.apply ws).dev.size = fs.dev.size ∧ (fs.apply ws).blockSize = fs.blockSize ∧
      (fs.apply ws).blocksCount = fs.blocksCount := by
  rw [apply_eq]
  exact ⟨rfl, rfl, rfl⟩

/-- Whole-block writes outside the journal leave its blocks alone. -/
theorem LogSame.apply {j : Journal} {ws : Writes} {u t : Filesystem} (hs : LogSame j u t)
    (hout : ∀ w ∈ ws, w.1 ∉ j.map) (hl : ∀ w ∈ ws, w.2.length = u.blockSize) :
    LogSame j u (t.apply ws) := by
  induction ws generalizing t with
  | nil => exact hs
  | cons w ws ih =>
    exact ih (hs.put (hout w List.mem_cons_self) (hl w List.mem_cons_self))
      (fun v hv => hout v (List.mem_cons_of_mem w hv)) fun v hv => hl v (List.mem_cons_of_mem w hv)

theorem LogSame.apply_both {j : Journal} {ws : Writes} {u t : Filesystem} (hs : LogSame j u t)
    (hout : ∀ w ∈ ws, w.1 ∉ j.map) (hl : ∀ w ∈ ws, w.2.length = u.blockSize) :
    LogSame j (u.apply ws) (t.apply ws) := by
  have hu := (LogSame.refl j u).apply hout hl
  have ht := hs.apply hout hl
  exact ⟨ht.size.trans hu.size.symm, ht.blockSize.trans hu.blockSize.symm,
    ht.blocksCount.trans hu.blocksCount.symm, fun p hp => (ht.block p hp).trans (hu.block p hp).symm⟩

/-- `m` makes the block writes `W`, whole blocks each, and as long as they stay out of the
    journal it sees nothing of the device but the journal's blocks. -/
structure Logs {α : Type} (j : Journal) (m : FsM α) (W : Filesystem → Writes) : Prop where
  state : ∀ u, (exec m u).2 = u.apply (W u)
  whole : ∀ u, ∀ w ∈ W u, w.2.length = u.blockSize
  same : ∀ u t, LogSame j u t → (∀ w ∈ W u, w.1 ∉ j.map) → (exec m t).1 = (exec m u).1 ∧ W t = W u

/-- The writes of `m`, then of what follows its result. -/
def andThen {α : Type} (m : FsM α) (W : Filesystem → Writes) (V : α → Filesystem → Writes)
    (u : Filesystem) : Writes :=
  W u ++ match exec m u with
    | (.ok a, t) => V a t
    | (.error _, _) => []

section Logs

variable {α β : Type} {j : Journal} {m : FsM α} {W : Filesystem → Writes}

theorem logs_pure (a : α) : Logs j (pure a) fun _ => [] where
  state _ := rfl
  whole _ _ hw := absurd hw List.not_mem_nil
  same _ _ _ _ := ⟨rfl, rfl⟩

theorem logs_throw (e : Error) : Logs j (throw e : FsM α) fun _ => [] where
  state _ := rfl
  whole _ _ hw := absurd hw List.not_mem_nil
  same _ _ _ _ := ⟨rfl, rfl⟩

/-- What `m` leaves on two devices alike in the journal is alike there again. -/
theorem Logs.next (h : Logs j m W) {u t : Filesystem} (hs : LogSame j u t)
    (hout : ∀ w ∈ W u, w.1 ∉ j.map) : LogSame j (exec m u).2 (exec m t).2 := by
  rw [h.state u, h.state t, (h.same u t hs hout).2]
  exact hs.apply_both hout (h.whole u)

theorem Logs.bind {f : α → FsM β} {V : α → Filesystem → Writes} (hm : Logs j m W)
    (hf : ∀ a, Logs j (f a) (V a)) : Logs j (m >>= f) (andThen m W V) where
  state u := by
    have hst := hm.state u
    unfold andThen
    rw [exec_bind, apply_append]
    rcases hx : exec m u with ⟨_ | a, t⟩
    · rw [hx] at hst
      exact hst
    · rw [hx] at hst
      dsimp only at hst ⊢
      rw [← hst]
      exact (hf a).state t
  whole u w hw := by
    have hst := hm.state u
    unfold andThen at hw
    rcases List.mem_append.mp hw with hw | hw
    · exact hm.whole u w hw
    rcases hx : exec m u with ⟨_ | a, t⟩
    · rw [hx] at hw
      exact absurd hw List.not_mem_nil
    · rw [hx] at hw hst
      dsimp only at hst hw
      rw [(hf a).whole t w hw, hst, (apply_fields u (W u)).2.1]
  same u t hs hout := by
    have houtW : ∀ w ∈ W u, w.1 ∉ j.map := fun w hw => hout w (List.mem_append_left _ hw)
    obtain ⟨hres, hW⟩ := hm.same u t hs houtW
    have hnext := hm.next hs houtW
    unfold andThen at hout ⊢
    rw [exec_bind, exec_bind]
    rcases hu : exec m u with ⟨_ | a, u'⟩
    · rcases ht : exec m t with ⟨_ | b, t'⟩
      · rw [hu, ht] at hres
        cases hres
        exact ⟨rfl, by rw [hW]⟩
      · rw [hu, ht] at hres
        cases hres
    · rcases ht : exec m t with ⟨_ | b, t'⟩
      · rw [hu, ht] at hres
        cases hres
      · rw [hu, ht] at hres hnext
        cases hres
        obtain ⟨hres', hV⟩ := (hf a).same u' t' hnext fun w hw =>
          hout w (List.mem_append_right _ (by rw [hu]; exact hw))
        exact ⟨hres', by rw [hW]; exact congrArg _ hV⟩

/-- What follows `m` writes nothing. -/
theorem Logs.bind_quiet {f : α → FsM β} (hm : Logs j m W) (hf : ∀ a, Logs j (f a) fun _ => []) :
    Logs j (m >>= f) W := by
  have hnil : (andThen m W fun _ _ => []) = W := by
    funext u
    unfold andThen
    split <;> exact List.append_nil _
  rw [← hnil]
  exact hm.bind hf

/-- A command that writes nothing leaves the device as it was. -/
theorem Logs.quiet (hm : Logs j m fun _ => []) {u t : Filesystem} {x : Except Error α}
    (hx : exec m u = (x, t)) : t = u := by
  have hstate := hm.state u
  rw [hx] at hstate
  exact hstate

theorem logs_read (j : Journal) (b : Nat) : Logs j (j.read b) fun _ => [] := by
  unfold Journal.read
  rcases hp : j.map[b]? with _ | p
  · exact logs_throw _
  · refine ⟨fun u => ?_, fun _ _ hw => absurd hw List.not_mem_nil, fun u t hs _ => ⟨?_, rfl⟩⟩
    · rcases exec_readBlock_cases p u with ⟨e, h⟩ | h
      · rw [h u rfl rfl rfl]
        rfl
      · rw [h u rfl rfl rfl]
        rfl
    · rcases exec_readBlock_cases p u with ⟨e, h⟩ | h
      · rw [h u rfl rfl rfl, h t hs.size hs.blockSize hs.blocksCount]
      · rw [h u rfl rfl rfl, h t hs.size hs.blockSize hs.blocksCount,
          hs.block p (List.mem_of_getElem? hp)]

theorem exec_read_same {b : Nat} {u t : Filesystem} (hs : LogSame j u t) :
    exec (j.read b) t = ((exec (j.read b) u).1, t) := by
  have hres := ((logs_read j b).same u t hs fun _ hw => absurd hw List.not_mem_nil).1
  exact Prod.ext hres ((logs_read j b).state t)

/-- A log block that reads is the block the map names. -/
theorem read_ok {b : Nat} {u t : Filesystem} {buf : List UInt8}
    (h : exec (j.read b) u = (.ok buf, t)) : b < j.map.length ∧ buf = u.block (j.map.getD b 0) := by
  unfold Journal.read at h
  rcases hp : j.map[b]? with _ | p
  · rw [hp] at h
    cases h
  · rw [hp] at h
    refine ⟨(List.getElem?_eq_some_iff.mp hp).1, ?_⟩
    rw [List.getD_eq_getElem?_getD, hp, Option.getD_some]
    rcases exec_readBlock_cases p u with ⟨e, hx⟩ | hx
    · rw [hx u rfl rfl rfl] at h
      cases h
    · rw [hx u rfl rfl rfl] at h
      cases h
      rfl

end Logs

/-! ## The writes of the replay -/

namespace Journal

/-- The home write one tag makes in the replay, if any. -/
def tagWrites (j : Journal) (s : PassState) (tag : Tag) (u : Filesystem) : Writes :=
  match exec (j.replayTag true s tag) u with
  | (.ok s', t) =>
    if s'.recovery.blocksReplayed = s.recovery.blocksReplayed then []
    else [(tag.block, t.block tag.block)]
  | (.error _, _) => []

def tagsWrites (j : Journal) : List Tag → PassState → Filesystem → Writes
  | [], _ => fun _ => []
  | tag :: tags, s => andThen (j.replayTag true s tag) (j.tagWrites s tag) (j.tagsWrites tags)

/-- The writes of a turn of the replay: those of the tags, if `buf` is a descriptor. -/
def headerWrites (j : Journal) (s : PassState) (buf : List UInt8) : Filesystem → Writes :=
  if (getU32Be buf 0 = jbd2Magic ∧ getU32Be buf 8 = s.nextCommit) ∧
      getU32Be buf 4 = descriptorBlock ∧ j.blockTailOk buf = true then
    j.tagsWrites (tags j.header buf) s
  else fun _ => []

def turnWrites (j : Journal) (s : PassState) : Filesystem → Writes :=
  andThen (j.read s.nextBlock) (fun _ => []) fun buf =>
    j.headerWrites { s with nextBlock := j.wrap (s.nextBlock + 1) } buf

/-- The home writes of the replay pass from `s` on, in the order they are made. -/
def passWrites (j : Journal) (finish : Nat) : Nat → PassState → Filesystem → Writes
  | 0, _ => fun _ => []
  | fuel + 1, s =>
    if tidGeq s.nextCommit finish then fun _ => []
    else andThen (j.passTurn true s) (j.turnWrites s) fun x =>
      match x.2 with
      | some _ => fun _ => []
      | none => j.passWrites finish fuel x.1

end Journal

section PassWrites

variable {j : Journal}

/-- A tag ends without a write, or sends one whole block home; which, and what block, is
    settled by the journal's blocks. -/
theorem exec_replayTag_cases (s : Journal.PassState) (tag : Tag) (u : Filesystem) :
    (∃ x, (∀ s', x = .ok s' → s'.recovery.blocksReplayed = s.recovery.blocksReplayed) ∧
      ∀ t, LogSame j u t → exec (j.replayTag true s tag) t = (x, t)) ∨
    ∃ s' data, s'.recovery.blocksReplayed = s.recovery.blocksReplayed + 1 ∧
      data.length = u.blockSize ∧
      ∀ t, LogSame j u t → exec (j.replayTag true s tag) t = (.ok s', t.put tag.block data) := by
  unfold Journal.replayTag
  simp only [Bool.not_true, Bool.false_eq_true, if_false]
  by_cases hrev : ((s.revoked tag.block).any fun seq => !tidGt s.nextCommit seq) = true
  · left
    simp only [hrev, if_true]
    exact ⟨.ok _, fun s' hs' => by cases hs'; rfl, fun t _ => rfl⟩
  simp only [hrev, Bool.false_eq_true, if_false]
  rcases hread : exec (j.read s.nextBlock) u with ⟨e | data, u'⟩
  · left
    refine ⟨.error e, fun s' hs' => (by cases hs'), fun t hs => ?_⟩
    rw [exec_bind, exec_read_same hs, hread]
  have hlen : data.length = u.blockSize := by
    rw [(read_ok hread).2]
    exact length_block u _
  have hbind : ∀ (f : List UInt8 → FsM Journal.PassState) t, LogSame j u t →
      exec (j.read s.nextBlock >>= f) t = exec (f data) t := by
    intro f t hs
    rw [exec_bind, exec_read_same hs, hread]
  by_cases hdata : (!j.dataOk tag.bytes data s.nextCommit) = true
  · left
    refine ⟨.ok { s with
        nextBlock := j.wrap (s.nextBlock + 1)
        recovery := { s.recovery with
          errors := s.recovery.errors ++ [s!"invalid checksum recovering data block {tag.block} in the journal"] } },
      fun s' hs' => (by cases hs'; rfl), fun t hs => ?_⟩
    rw [hbind _ t hs]
    simp only [hdata, if_true]
    rfl
  by_cases hhome : u.blocksCount ≤ tag.block
  · left
    refine ⟨.ok { s with
        nextBlock := j.wrap (s.nextBlock + 1)
        recovery := { s.recovery with
          errors := s.recovery.errors ++ [s!"journal block for block {tag.block}, past the end of the filesystem"] } },
      fun s' hs' => (by cases hs'; rfl), fun t hs => ?_⟩
    rw [hbind _ t hs]
    simp only [hdata, Bool.false_eq_true, if_false]
    rw [exec_bind, exec_get]
    simp only [hs.blocksCount, hhome, if_true]
    rfl
  have hlen' : (if tag.flags &&& flagEscape ≠ 0 then putU32Be data 0 jbd2Magic else data).length =
      u.blockSize := by
    split
    · rw [putU32Be, length_splice, hlen]
    · exact hlen
  rcases exec_writeBlock_cases tag.block
    (if tag.flags &&& flagEscape ≠ 0 then putU32Be data 0 jbd2Magic else data) u with ⟨e, hw⟩ | hw
  · left
    refine ⟨.error e, fun s' hs' => (by cases hs'), fun t hs => ?_⟩
    rw [hbind _ t hs]
    simp only [hdata, Bool.false_eq_true, if_false]
    rw [exec_bind, exec_get]
    simp only [hs.blocksCount, hhome, if_false]
    rw [exec_bind, hw t hs.size hs.blockSize]
  · right
    refine ⟨{ s with
        nextBlock := j.wrap (s.nextBlock + 1)
        recovery := { s.recovery with blocksReplayed := s.recovery.blocksReplayed + 1 } }, _, rfl,
      hlen', fun t hs => ?_⟩
    rw [hbind _ t hs]
    simp only [hdata, Bool.false_eq_true, if_false]
    rw [exec_bind, exec_get]
    simp only [hs.blocksCount, hhome, if_false]
    rw [exec_bind, hw t hs.size hs.blockSize]
    rfl

theorem logs_replayTag (s : Journal.PassState) (tag : Tag) :
    Logs j (j.replayTag true s tag) (j.tagWrites s tag) := by
  have hwrites : ∀ u, (∃ x, ∀ t, LogSame j u t →
      exec (j.replayTag true s tag) t = (x, t) ∧ j.tagWrites s tag t = []) ∨
      ∃ x data, data.length = u.blockSize ∧ ∀ t, LogSame j u t →
        exec (j.replayTag true s tag) t = (x, t.put tag.block data) ∧
          j.tagWrites s tag t = [(tag.block, data)] := by
    intro u
    rcases exec_replayTag_cases s tag u with ⟨x, hx, hrun⟩ | ⟨s', data, hs', hl, hrun⟩
    · refine Or.inl ⟨x, fun t hs => ⟨hrun t hs, ?_⟩⟩
      unfold Journal.tagWrites
      rw [hrun t hs]
      cases x with
      | error e => rfl
      | ok s' => exact if_pos (hx s' rfl)
    · refine Or.inr ⟨.ok s', data, hl, fun t hs => ⟨hrun t hs, ?_⟩⟩
      unfold Journal.tagWrites
      rw [hrun t hs]
      dsimp only
      rw [if_neg (by omega), put_block (hl.trans hs.blockSize.symm), if_pos rfl]
  refine ⟨fun u => ?_, fun u w hw => ?_, fun u t hs _ => ?_⟩
  · rcases hwrites u with ⟨x, h⟩ | ⟨x, data, _, h⟩
    · obtain ⟨hrun, hnil⟩ := h u (LogSame.refl j u)
      rw [hrun, hnil]
      rfl
    · obtain ⟨hrun, hone⟩ := h u (LogSame.refl j u)
      rw [hrun, hone]
      rfl
  · rcases hwrites u with ⟨x, h⟩ | ⟨x, data, hl, h⟩
    · rw [(h u (LogSame.refl j u)).2] at hw
      exact absurd hw List.not_mem_nil
    · rw [(h u (LogSame.refl j u)).2] at hw
      rw [List.mem_singleton.mp hw]
      exact hl
  · rcases hwrites u with ⟨x, h⟩ | ⟨x, data, _, h⟩
    · rw [(h u (LogSame.refl j u)).1, (h u (LogSame.refl j u)).2, (h t hs).1, (h t hs).2]
      exact ⟨rfl, rfl⟩
    · rw [(h u (LogSame.refl j u)).1, (h u (LogSame.refl j u)).2, (h t hs).1, (h t hs).2]
      exact ⟨rfl, rfl⟩

theorem logs_replayTags (xs : List Tag) (s : Journal.PassState) :
    Logs j (xs.foldlM (j.replayTag true) s) (j.tagsWrites xs s) := by
  induction xs generalizing s with
  | nil => exact logs_pure s
  | cons x xs ih =>
    rw [List.foldlM_cons]
    exact (logs_replayTag s x).bind ih

theorem logs_skipTags (xs : List Tag) (s : Journal.PassState) :
    Logs j (xs.foldlM (j.replayTag false) s) fun _ => [] := by
  induction xs generalizing s with
  | nil => exact logs_pure s
  | cons x xs ih =>
    rw [List.foldlM_cons]
    exact Logs.bind_quiet (logs_pure _) ih

theorem logs_headerTurn (s : Journal.PassState) (buf : List UInt8) :
    Logs j (j.headerTurn true s buf) (j.headerWrites s buf) := by
  unfold Journal.headerTurn Journal.headerWrites
  dsimp only
  by_cases hw : (getU32Be buf 0 = jbd2Magic ∧ getU32Be buf 8 = s.nextCommit) ∧
      getU32Be buf 4 = descriptorBlock ∧ j.blockTailOk buf = true
  · have hhead : ¬(getU32Be buf 0 ≠ jbd2Magic ∨ getU32Be buf 8 ≠ s.nextCommit) := by tauto
    rw [if_pos hw, if_neg hhead, if_pos hw.2.1, if_neg (by simp [hw.2.2])]
    exact (logs_replayTags _ s).bind_quiet fun _ => logs_pure _
  rw [if_neg hw]
  split
  · exact logs_pure _
  rename_i hhead
  split
  · rename_i hdesc
    split
    · exact logs_pure _
    · rename_i htail
      exact absurd ⟨by tauto, hdesc, by simpa using htail⟩ hw
  split
  · exact logs_pure _
  split
  · exact logs_pure _
  · exact logs_pure _

theorem logs_passTurn (s : Journal.PassState) : Logs j (j.passTurn true s) (j.turnWrites s) :=
  (logs_read j s.nextBlock).bind fun buf => logs_headerTurn _ buf

/-- The replay pass writes what its tags send home, and reads the journal only. -/
theorem logs_pass (finish fuel : Nat) (s : Journal.PassState) :
    Logs j (j.passFrom finish true fuel s) (j.passWrites finish fuel s) := by
  induction fuel generalizing s with
  | zero => exact logs_pure _
  | succ fuel ih =>
    rw [Journal.passFrom_succ, Journal.passWrites]
    split
    · exact logs_pure _
    · refine (logs_passTurn s).bind fun x => ?_
      rcases x with ⟨s', _ | e⟩
      · exact ih s'
      · exact logs_pure _

/-- A turn of the revoke pass writes nothing. -/
theorem logs_revokeTurn (s : Journal.PassState) : Logs j (j.passTurn false s) fun _ => [] := by
  refine (logs_read j s.nextBlock).bind_quiet fun buf => ?_
  unfold Journal.headerTurn
  dsimp only
  split
  · exact logs_pure _
  split
  · exact (logs_skipTags _ _).bind_quiet fun _ => logs_pure _
  split
  · exact logs_pure _
  split
  · cases revokeRecords j.header buf with
    | error e => exact logs_pure _
    | ok records => exact logs_pure _
  · exact logs_pure _

theorem logs_revokePass (finish fuel : Nat) (s : Journal.PassState) :
    Logs j (j.passFrom finish false fuel s) fun _ => [] := by
  induction fuel generalizing s with
  | zero => exact logs_pure _
  | succ fuel ih =>
    rw [Journal.passFrom_succ]
    split
    · exact logs_pure _
    refine (logs_revokeTurn s).bind_quiet fun x => ?_
    rcases x with ⟨s', _ | e⟩
    · exact ih s'
    · exact logs_pure _

theorem logs_scanFrom (turns : Nat) (s : Journal.ScanState) (r : Recovery) :
    Logs j (j.scanFrom turns s r) fun _ => [] := by
  induction turns generalizing s r with
  | zero => exact logs_pure _
  | succ turns ih =>
    unfold Journal.scanFrom
    refine (logs_read j s.nextBlock).bind_quiet fun buf => ?_
    dsimp only
    split
    · exact logs_pure _
    split
    · exact ih _ _
    split
    · split
      · split
        · exact logs_pure _
        · exact logs_pure _
      split
      · split
        · exact logs_pure _
        · exact logs_pure _
      · exact ih _ _
    split
    · exact ih _ _
    · exact logs_pure _

end PassWrites

end MkfsExt4.Jbd2
