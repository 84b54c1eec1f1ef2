/-
  Stages — the states that a scan passes through while it reads a character.

  `State.run` tells only of the states between two characters.  In between, a character is looked at,
  shown to one filter and then to the other, and handled, and each of these steps leaves a state that
  some invariant may be about.

  An invariant may be broken between two steps and be restored by the next, or it may hold throughout;
  only the second sort can be relied on by the step in between.  Stages make it possible to say so.

  1. **Steps** — reading is the five steps one after another (`read_eq_ok`); what a filter that is
     shown a character may change, and the four things that handling a character may be.
  2. **Stages** — `Passes text stage s`: the scan of `text` passes through the state `s` at that stage.
  3. **What every step keeps** — a property that the start has and each of the five steps keeps holds at
     every stage of every scan (`Kept.passes`).
-/
import StyleFold.Proofs.Lookahead.Moves

namespace StyleFold

/-- What a reaction does to the cursor: only the pending text may change. -/
theorem Cursor.heed_eq_ok {k k' : Cursor} {r : Reaction} (h : k.heed r = .ok k') :
    ∃ pending, k' = { k with pending } ∧
      (pending = k.pending ∨ (∃ mark, r = .opened mark ∧ pending = k.pending.dropSuffix mark) ∨
        pending = []) := by
  cases r with
  | none => exact ⟨_, (Except.ok.inj h).symm, .inl rfl⟩
  | opened mark => exact ⟨_, (Except.ok.inj h).symm, .inr (.inl ⟨mark, rfl, rfl⟩)⟩
  | ending discard =>
    cases discard with
    | false => exact ⟨_, (Except.ok.inj h).symm, .inl rfl⟩
    | true => exact ⟨_, (Except.ok.inj h).symm, .inr (.inr rfl)⟩
  | failed fault => exact absurd h (by simp [Cursor.heed])

namespace Scan.State

variable {text u input : Text} {s s' : State} {c : Char} {ends : Bool}

/-! ## Steps

  Each step inverted once: what must have been the case if it gave this state. -/

/-- What the comment filter asks for when it is shown the character. -/
def commentReaction (s : State) (c : Char) : Reaction :=
  (s.comments.step (s.cursor.glance c s.imports.active)).2

/-- What the import filter asks for when it is shown the character. -/
def importReaction (s : State) (c : Char) : Reaction :=
  (s.imports.step (s.cursor.glance c s.comments.active)).2

/-- Showing a character to the comment filter changes the filter and the pending text. -/
theorem pollComments_eq_ok (h : s.pollComments c = .ok (s', ends)) : ∃ cursor,
    s.cursor.heed (s.commentReaction c) = .ok cursor ∧ ends = (s.commentReaction c).isEnding ∧
      s' = { s with
        cursor, comments := (s.comments.step (s.cursor.glance c s.imports.active)).1 } := by
  obtain ⟨⟨comments, cursor, ends'⟩, hpoll, hs⟩ := bind_eq_ok.mp h
  obtain ⟨reaction, hstep, hheed, rfl⟩ := Cursor.poll_eq_ok_iff.mp hpoll
  obtain ⟨rfl, rfl⟩ := Prod.mk.inj (Except.ok.inj hs)
  rw [commentReaction, hstep]
  exact ⟨cursor, hheed, rfl, rfl⟩

/-- Showing a character to the import filter changes the filter and the pending text. -/
theorem pollImports_eq_ok (h : s.pollImports c = .ok (s', ends)) : ∃ cursor,
    s.cursor.heed (s.importReaction c) = .ok cursor ∧ ends = (s.importReaction c).isEnding ∧
      s' = { s with
        cursor, imports := (s.imports.step (s.cursor.glance c s.comments.active)).1 } := by
  obtain ⟨⟨imports, cursor, ends'⟩, hpoll, hs⟩ := bind_eq_ok.mp h
  obtain ⟨reaction, hstep, hheed, rfl⟩ := Cursor.poll_eq_ok_iff.mp hpoll
  obtain ⟨rfl, rfl⟩ := Prod.mk.inj (Except.ok.inj hs)
  rw [importReaction, hstep]
  exact ⟨cursor, hheed, rfl, rfl⟩

/-- Whether the character, when it is handled in this state, is a brace that opens a block. -/
def opensBlock (s : State) (c : Char) : Bool := !s.filtering && !s.cursor.quoted && c == '{'

/-- What handling a character does. -/
inductive Handled : State → Char → State → Prop
  | swallowed {s : State} {c : Char} (h : s.filtering = true) : Handled s c s
  | pushed {s : State} {c : Char} (h : s.filtering = false)
      (hc : s.cursor.quoted = true ∨ c ≠ '{' ∧ c ≠ '}') :
      Handled s c { s with cursor := s.cursor.push [c] }
  | opened {s : State} {blocks : Blocks} (h : s.opensBlock '{' = true)
      (hb : s.blocks.openBlock s.cursor.pending s.cursor.line = .ok blocks) :
      Handled s '{' { s with blocks, cursor := s.cursor.clear }
  | closed {s : State} {blocks : Blocks} (hb : s.blocks.closeBlock s.cursor.pending = .ok blocks) :
      Handled s '}' { s with blocks, cursor := s.cursor.clear }

/-- Handling a character is one of the four. -/
theorem handled_of_handle (h : s.handle c = .ok s') : Handled s c s' := by
  unfold handle at h
  split at h
  · rename_i hfilter
    obtain rfl := Except.ok.inj h
    exact .swallowed hfilter
  rename_i hfilter
  have hidle : s.filtering = false := Bool.eq_false_iff.mpr hfilter
  split at h
  · rename_i hquoted
    obtain rfl := Except.ok.inj h
    exact .pushed hidle (.inl hquoted)
  rename_i hquoted
  split at h
  · rename_i hopen
    subst hopen
    split at h
    · rename_i blocks hb
      obtain rfl := Except.ok.inj h
      exact .opened (by simp [opensBlock, hidle, hquoted]) hb
    · exact absurd h (by simp)
  rename_i hopen
  split at h
  · rename_i hclose
    subst hclose
    split at h
    · rename_i blocks hb
      obtain rfl := Except.ok.inj h
      exact .closed hb
    · exact absurd h (by simp)
  · rename_i hclose
    obtain rfl := Except.ok.inj h
    exact .pushed hidle (.inr ⟨hopen, hclose⟩)

/-- Show the character to both filters: the state in which it is handled, and which filters end. -/
def poll (s : State) (c : Char) : Except Fault (State × Bool × Bool) := do
  let (s, commentEnds) ← (s.look c).pollComments c
  let (s, importEnds) ← s.pollImports c
  return (s, commentEnds, importEnds)

/-- Both filters are shown the character, the comment filter first. -/
theorem poll_eq_ok {shown : State × Bool × Bool} (h : s.poll c = .ok shown) : ∃ marked,
    (s.look c).pollComments c = .ok (marked, shown.2.1) ∧
      marked.pollImports c = .ok (shown.1, shown.2.2) := by
  obtain ⟨⟨marked, commentEnds⟩, hcomments, h⟩ := bind_eq_ok.mp h
  obtain ⟨⟨worded, importEnds⟩, himports, h⟩ := bind_eq_ok.mp h
  obtain rfl := Except.ok.inj h
  exact ⟨marked, hcomments, himports⟩

/-- Reading is the five steps one after another. -/
theorem read_eq_ok (h : s.read c = .ok s') : ∃ shown handled, s.poll c = .ok shown ∧
    shown.1.handle c = .ok handled ∧ s' = handled.settle shown.2.1 shown.2.2 := by
  obtain ⟨⟨marked, commentEnds⟩, hcomments, h⟩ := bind_eq_ok.mp h
  obtain ⟨⟨worded, importEnds⟩, himports, h⟩ := bind_eq_ok.mp h
  obtain ⟨handled, hhandle, h⟩ := bind_eq_ok.mp h
  refine ⟨(worded, commentEnds, importEnds), handled, ?_, hhandle, (Except.ok.inj h).symm⟩
  exact bind_eq_ok.mpr ⟨_, hcomments, bind_eq_ok.mpr ⟨_, himports, rfl⟩⟩

/-! ## Stages

  The relation is generated by the steps, so that a proof about every stage is an induction with five
  cases. -/

/-- How far a scan has come with the character it reads. -/
inductive Stage
  /-- Between two characters. -/
  | rest
  /-- The character was looked at. -/
  | looked (c : Char)
  /-- The character was shown to the comment filter. -/
  | marked (c : Char)
  /-- The character was shown to both filters. -/
  | worded (c : Char)
  /-- The character was handled, and no filter is closed yet. -/
  | handled (c : Char)

/-- The scan of the text passes through a state at a stage. -/
inductive Passes (text : Text) : Stage → State → Prop
  | rest {u : Text} {s : State} (hu : u <+: text) (h : run text {} u = .ok s) : Passes text .rest s
  | look {u : Text} {c : Char} {s : State} (hu : u ++ [c] <+: text) (h : run text {} u = .ok s) :
      Passes text (.looked c) (s.look c)
  | pollComments {c : Char} {s s' : State} {ends : Bool} (hs : Passes text (.looked c) s)
      (h : s.pollComments c = .ok (s', ends)) : Passes text (.marked c) s'
  | pollImports {c : Char} {s s' : State} {ends : Bool} (hs : Passes text (.marked c) s)
      (h : s.pollImports c = .ok (s', ends)) : Passes text (.worded c) s'
  | handle {c : Char} {s s' : State} (hs : Passes text (.worded c) s) (h : s.handle c = .ok s') :
      Passes text (.handled c) s'

/-! ## What every step keeps -/

/-- A property that each of the five steps keeps. -/
structure Kept (P : State → Prop) : Prop where
  look : ∀ {s : State} (c : Char), P s → P (s.look c)
  pollComments : ∀ {s s' : State} {c : Char} {ends : Bool},
    s.pollComments c = .ok (s', ends) → P s → P s'
  pollImports : ∀ {s s' : State} {c : Char} {ends : Bool},
    s.pollImports c = .ok (s', ends) → P s → P s'
  handle : ∀ {s s' : State} {c : Char}, s.handle c = .ok s' → P s → P s'
  settle : ∀ {s : State} (commentEnds importEnds : Bool), P s → P (s.settle commentEnds importEnds)

namespace Kept

variable {P : State → Prop}

/-- One character keeps what its steps keep. -/
theorem read (hP : Kept P) (h : s.read c = .ok s') (hs : P s) : P s' := by
  obtain ⟨shown, handled, hpoll, hhandle, rfl⟩ := read_eq_ok h
  obtain ⟨marked, hcomments, himports⟩ := poll_eq_ok hpoll
  have hmarked : P marked := hP.pollComments hcomments (hP.look c hs)
  have hhandled : P handled := hP.handle hhandle (hP.pollImports himports hmarked)
  exact hP.settle _ _ hhandled

/-- A text keeps what every character keeps. -/
theorem run (hP : Kept P) : ∀ {t : Text} {s s' : State}, State.run input s t = .ok s' → P s → P s'
  | [], s, s', h, hs => by
    obtain rfl : s = s' := Except.ok.inj h
    exact hs
  | c :: t, s, s', h, hs => by
    obtain ⟨next, hread, hrest⟩ := run_cons_eq_ok h
    exact hP.run hrest (hP.read hread hs)

/-- What the start has and every step keeps holds at every stage. -/
theorem passes (hP : Kept P) (start : P {}) {stage : Stage} (h : Passes text stage s) : P s := by
  induction h with
  | rest _ h => exact hP.run h start
  | look _ h => exact hP.look _ (hP.run h start)
  | pollComments _ h ih => exact hP.pollComments h ih
  | pollImports _ h ih => exact hP.pollImports h ih
  | handle _ h ih => exact hP.handle h ih

end Kept

end Scan.State

end StyleFold
