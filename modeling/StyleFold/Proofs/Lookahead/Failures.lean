/-
  Failures — a failed parse points at the character that brought it about, and at no later one.

  A failure reports a place, and a place is only worth something if it is that of the offending
  character. The text up to that character has to be harmless, in whatever way it goes on, and the
  character has to be the one that no continuation can make good.

  1. **Refused places** — where a text fails: the scan of the text before comes there and refuses the
     character, or the text ends there and may not.  A parse that fails does so at a refused place, on the
     line behind that character (`refusedAt_of_parse`).
  2. **Refused characters** — a character that is refused completes a mark of the fault, and it is
     refused whatever stands behind it (`RefusedAt.stable`).
  3. **Failures** — place, line, excerpt and independence together (`Node.located_of_parse`).
-/
import StyleFold.Proofs.Lookahead.Moves

namespace StyleFold

namespace Scan.State

open Lookahead

variable {text u : Text} {index : Nat} {s : State} {c : Char} {f : Failure} {fault : Fault}

/-! ## Refused places

  Where the scan stops, in terms of the text before the place and the character there. -/

/-- Whether the scan comes to a place of the text and cannot go on there. -/
inductive RefusedAt (text : Text) (index : Nat) (fault : Fault) : Prop
  /-- The character there is refused. -/
  | character {s : State} {c : Char} (hrun : run text {} (text.take index) = .ok s)
      (hat : text[index]? = some c) (hrefused : s.read c = .error fault)
  /-- The text may not end there. -/
  | ending {s : State} {f : Failure} (hindex : index = text.length) (hrun : run text {} text = .ok s)
      (hrefused : s.finish text = .error f) (hfault : f.fault = fault)

/-- Looking at a character counts its line feed and stays in place. -/
theorem look_place (s : State) (c : Char) : (s.look c).cursor.index = s.cursor.index ∧
    (s.look c).cursor.line = s.cursor.line + [c].count '\n' := by
  by_cases hn : c = '\n' <;> by_cases hactive : s.comments.active = true <;>
    simp [look, Cursor.countLine, Cursor.trackQuote, hn, hactive]

/-- A character that is refused behind a text is located there, on the line through it. -/
theorem failure_of_read {input : Text} (hrun : run text {} u = .ok s) :
    (s.look c).cursor.failure input fault =
      .locate fault input u.length (1 + (u ++ [c]).count '\n') := by
  obtain ⟨hindex, hline⟩ := look_place s c
  obtain ⟨hindex', hline'⟩ := (reached_start.run hrun).cursor
  rw [Cursor.failure, hindex, hline, hindex', hline', List.count_append]
  simp [Position.past, Nat.add_assoc]

/-- A text that may not end is located at its end, open blocks before an open statement. -/
theorem failure_of_finish (hrun : run text {} text = .ok s) (h : s.finish text = .error f) :
    f = .locate f.fault text text.length (1 + text.count '\n') ∧
      (f.fault = .unbalancedBraces ∨ f.fault = .missingSemicolon) := by
  obtain ⟨hindex, hline⟩ := (reached_start.run hrun).cursor
  have hplace (fault : Fault) : s.cursor.failure text fault =
      .locate fault text text.length (1 + text.count '\n') := by
    rw [Cursor.failure, hindex, hline]
    simp [Position.past]
  rw [finish] at h
  split at h
  · obtain rfl := Except.error.inj h
    exact ⟨hplace .unbalancedBraces, .inl rfl⟩
  · split at h
    · rename_i fault hfault
      obtain rfl := Except.error.inj h
      have hmissing : Fault.missingSemicolon = fault := by
        rw [Imports.fault?] at hfault
        split at hfault
        · exact Option.some.inj hfault
        · exact absurd hfault (by simp)
      exact ⟨hplace fault, .inr hmissing.symm⟩
    · exact absurd h (by simp)

/-- The text up to a character, and that character. -/
theorem take_eq_of_getElem? (h : text[index]? = some c) : text.take (index + 1) = text.take index ++ [c] := by
  rw [List.take_add_one, h]
  rfl

/-- A parse that fails has come to a refused place. -/
theorem refusedAt_of_parse (h : Node.parse text = .error f) : RefusedAt text f.index f.fault ∧
    f = .locate f.fault text f.index (1 + (text.take (f.index + 1)).count '\n') := by
  have hparse : (run text {} text).bind (finish text) = .error f := h
  cases hrun : run text {} text with
  | error failure =>
    rw [hrun] at hparse
    obtain rfl := Except.error.inj hparse
    obtain ⟨u, c, v, s, fault, htext, hbefore, hrefused, rfl⟩ := run_error hrun
    rw [failure_of_read hbefore]
    have htake : text.take u.length = u := by rw [htext, List.take_left]
    have hat : text[u.length]? = some c := by simp [htext]
    refine ⟨.character (htake.symm ▸ hbefore) hat hrefused, ?_⟩
    show _ = Failure.locate fault text u.length (1 + (text.take (u.length + 1)).count '\n')
    rw [take_eq_of_getElem? hat, htake]
  | ok s =>
    rw [hrun] at hparse
    obtain ⟨hf, -⟩ := failure_of_finish hrun hparse
    have hindex : f.index = text.length := congrArg Failure.index hf
    rw [hindex, List.take_of_length_le (Nat.le_succ _)]
    exact ⟨.ending rfl hrun hparse rfl, hf⟩

/-! ## Refused characters

  What such a place has to show, by the fault: the last character of a mark, or a brace that nothing
  opened. -/

/-- What a refused place is like: the end of the text, or a character that completes a mark. -/
theorem RefusedAt.place (h : RefusedAt text index fault) :
    index = text.length ∧ (fault = .unbalancedBraces ∨ fault = .missingSemicolon) ∨
      index < text.length ∧
        ∃ mark ∈ fault.marks, mark <:+ text.take (index + 1) ∧ text[index]? = mark.getLast? := by
  cases h with
  | @character s c hrun hat hrefused =>
    have hmove := (reached_start.run hrun).move c
    rw [hrefused] at hmove
    obtain ⟨mark, hmark, hsuffix, hlast⟩ := hmove.refused (windowed_of_run hrun)
    refine .inr ⟨(List.getElem?_eq_some_iff.mp hat).1, mark, hmark, ?_, hat.trans hlast.symm⟩
    rwa [take_eq_of_getElem? hat]
  | ending hindex hrun hrefused hfault =>
    exact .inl ⟨hindex, hfault ▸ (failure_of_finish hrun hrefused).2⟩

/-- A refused character is refused whatever stands behind it. -/
theorem RefusedAt.stable (h : RefusedAt text index fault) (hindex : index < text.length)
    (w : Text) : Node.parse (text.take (index + 1) ++ w) = .error
      (.locate fault (text.take (index + 1) ++ w) index (1 + (text.take (index + 1)).count '\n')) := by
  cases h with
  | ending hend _ _ _ => exact absurd hend (Nat.ne_of_lt hindex)
  | @character s c hrun hat hrefused =>
    have hlength : (text.take index).length = index := List.length_take_of_le (Nat.le_of_lt hindex)
    have hfront : text.take (index + 1) ++ w = text.take index ++ c :: w := by
      rw [take_eq_of_getElem? hat, List.append_assoc]
      rfl
    have hbefore : run (text.take index) {} (text.take index) = .ok s := run_of_input hrun
    rw [hfront, parse_eq_bind hbefore, run_cons_of_error hrefused, failure_of_read hrun, hlength,
      take_eq_of_getElem? hat]
    rfl

end Scan.State

/-! ## Failures

  The report itself: place, line and excerpt. -/

/-- The characters of an excerpt are those of the text between two positions. -/
theorem excerpt_eq_extract (text : Text) (index : Nat) : excerpt text index =
    text.extract (index - excerptRadius) (min text.length (index + excerptRadius)) := by
  rw [excerpt, List.extract_eq_take_drop, List.drop_take]
  rcases Nat.le_total text.length (index + excerptRadius) with hle | hle
  · have hlength : (text.drop (index - excerptRadius)).length = text.length - (index - excerptRadius) :=
      List.length_drop
    rw [Nat.min_eq_left hle, List.take_of_length_le (by omega), List.take_of_length_le (by omega)]
  · rw [Nat.min_eq_right hle]

/-- An excerpt shows the character at its position. -/
theorem getElem?_excerpt {text : Text} {index : Nat} :
    (excerpt text index)[min index excerptRadius]? = text[index]? := by
  have hplace : index - excerptRadius + min index excerptRadius = index := by omega
  rw [excerpt, List.getElem?_drop, hplace, List.getElem?_take, if_pos]
  exact Nat.lt_add_of_pos_right (by decide)

/-- Where a failure of the parse of a text points, and that it depends on nothing behind. -/
structure Failure.Located (text : Text) (f : Failure) : Prop where
  /-- It points at the end of the text, or at the character that completes a mark of the fault. -/
  place : f.index = text.length ∧ (f.fault = .unbalancedBraces ∨ f.fault = .missingSemicolon) ∨
    f.index < text.length ∧
      ∃ mark ∈ f.fault.marks, mark <:+ text.take (f.index + 1) ∧ text[f.index]? = mark.getLast?
  /-- A line feed counts for itself. -/
  line : f.line = 1 + (text.take (f.index + 1)).count '\n'
  /-- The excerpt is what stands around the position. -/
  excerpt : f.excerpt =
    text.extract (f.index - excerptRadius) (min text.length (f.index + excerptRadius))
  /-- The excerpt holds the offending character. -/
  shown : f.excerpt[min f.index excerptRadius]? = text[f.index]?
  /-- Any text that begins alike, through the offending character, fails alike. -/
  stable : f.index < text.length → ∀ w, ∃ g, Node.parse (text.take (f.index + 1) ++ w) = .error g ∧
    g.fault = f.fault ∧ g.index = f.index ∧ g.line = f.line

namespace Node

/-- Every failure points at the character that brought it about. -/
theorem located_of_parse {text : Text} {f : Failure} (h : parse text = .error f) : f.Located text := by
  obtain ⟨hrefused, hf⟩ := Scan.State.refusedAt_of_parse h
  have hline : f.line = 1 + (text.take (f.index + 1)).count '\n' := congrArg Failure.line hf
  have hexcerpt : f.excerpt = excerpt text f.index := congrArg Failure.excerpt hf
  exact {
    place := hrefused.place
    line := hline
    excerpt := hexcerpt.trans (excerpt_eq_extract text f.index)
    shown := hexcerpt ▸ getElem?_excerpt
    stable := fun hindex w =>
      ⟨_, hrefused.stable hindex w, rfl, rfl, hline.symm⟩ }

/-- A statement that does not end on its line, in an open block. -/
def brokenStatement : Text := "@media p\x7b\n@import 'a'\n;\x7d".toList

/-- A statement broken by a line feed fails at the line feed, on the line that it begins. -/
theorem located_brokenStatement : ∃ f, parse brokenStatement = .error f ∧ f.Located brokenStatement ∧
    f = .locate .missingSemicolon brokenStatement 21 3 := by
  have h : parse brokenStatement = .error (.locate .missingSemicolon brokenStatement 21 3) := by
    decide +kernel
  exact ⟨_, h, located_of_parse h, rfl⟩

end Node

end StyleFold
