/-
  Moves — everything that one character does to a scan.

  Whatever a proof says of every step of a scan, it says for each of the four modes and each kind of
  character in it.  A move names the case and has what is known in it, so such a proof is a case
  analysis with a line or two for each move, and no state has to be taken apart in it.

  1. **Moves** — in a reached state a character does one of fourteen things; two of them are refusals
     outside, one a refusal inside a statement.  `Reached.move` goes through the modes once, and what
     one character keeps is from there on a case for each move.
  2. **Runs** — what the start has and every character keeps holds behind a text (`run_ind`), a run that
     fails has come to a character that is refused (`run_error`), and one that succeeds ends outside of all
     blocks if the text is parsed (`parse_eq_ok`).
  3. **Windows** — the windows of both filters hold what was read last, or less.
  4. **Refusals** — a character is refused because it completes a mark of the fault.
-/
import Mathlib.Data.List.Induction
import StyleFold.Proofs.Lookahead.Reachable

namespace StyleFold

/-- A computation in two parts succeeds if both parts do. -/
theorem bind_eq_ok {ε α β : Type} {x : Except ε α} {f : α → Except ε β} {b : β} :
    x >>= f = .ok b ↔ ∃ a, x = .ok a ∧ f a = .ok b := by
  cases x <;> simp [bind, Except.bind]

namespace Scan.State

open Lookahead

variable {input t u : Text} {s s' : State} {p : Position} {c : Char} {fault : Fault}

/-! ## Moves

  The state before and the state after, or the fault, with the condition on the character. -/

/-- What reading a character does. -/
inductive Move : State → Char → Except Fault State → Prop
  | openComment {o : Outlook} (h : o.marks.remember 2 '*' = Comments.openMark) :
      Move (outside o) '*'
        (.ok (inComment { o.shown '*' with pending := o.pending.dropSuffix ['/'], marks := [] }))
  | strayMark {o : Outlook} (h : o.marks.remember 2 '/' = Comments.closeMark) :
      Move (outside o) '/' (.error .unmatchedCommentClose)
  | openStatement {o : Outlook} (h : o.words.remember 7 't' = Imports.keyword) :
      Move (outside o) 't' (.ok (inStatement Imports.keyword none
        { o.shown 't' with pending := o.pending.dropSuffix Imports.keywordStart, words := [] }))
  | openLiteral {o : Outlook} {c : Char} (hq : isQuote c = true) :
      Move (outside o) c (.ok (inLiteral c (o.push c)))
  | brace {o : Outlook} {a a' : Assembly} (opens : Bool) (hb : o.blocks = a.blocks) (ha : a.Proper)
      (ht : a.take ⟨o.pending, opens, o.position⟩ = .ok a') :
      Move (outside o) (if opens then '{' else '}') (.ok (outside
        { o.shown (if opens then '{' else '}') with pending := [], blocks := a'.blocks }))
  | refusedBrace {o : Outlook} {a : Assembly} {fault : Fault} (opens : Bool)
      (ht : a.take ⟨o.pending, opens, o.position⟩ = .error fault) :
      Move (outside o) (if opens then '{' else '}') (.error fault)
  | plain {o : Outlook} {c : Char} (hopen : c ≠ '{') (hclose : c ≠ '}') (hq : isQuote c = false) :
      Move (outside o) c (.ok (outside (o.push c)))
  | literal {q : Char} {o : Outlook} {c : Char} (h : c ≠ q) :
      Move (inLiteral q o) c (.ok (inLiteral q (o.push c)))
  | closeLiteral {q : Char} {o : Outlook} : Move (inLiteral q o) q (.ok (outside (o.push q)))
  | comment {o : Outlook} {c : Char} : Move (inComment o) c (.ok (inComment (o.shown c)))
  | closeComment {o : Outlook} :
      Move (inComment o) '/' (.ok (outside { o.shown '/' with pending := [], marks := [] }))
  | statement {begun : Text} {q : Quote} {o : Outlook} {c : Char} (h : ¬ (c = ';' ∧ q.next c = none)) :
      Move (inStatement begun q o) c (.ok (inStatement (begun ++ [c]) (q.next c) (o.shown c)))
  | closeStatement {begun : Text} {q : Quote} {o : Outlook} (h : q.next ';' = none) :
      Move (inStatement begun q o) ';' (.ok (outside { o.shown ';' with
        words := []
        records := o.records ++ [⟨begun ++ [';'], o.position.line⟩] }))
  | breakStatement {begun : Text} {q : Quote} {o : Outlook} {c : Char}
      (h : c = '\n' ∨ o.words.remember 7 c = Imports.keyword) :
      Move (inStatement begun q o) c (.error .missingSemicolon)

/-- What a brace does outside, if it completes no mark. -/
theorem move_brace {o : Outlook} (opens : Bool) (hblocks : o.blocks.Founded)
    (hquiet : o.Quiet (if opens then '{' else '}')) :
    Move (outside o) (if opens then '{' else '}')
      ((outside o).read (if opens then '{' else '}')) := by
  obtain ⟨a, hb, ha⟩ := hblocks
  rw [read_brace opens hb ha.sound hquiet]
  cases ht : a.take ⟨o.pending, opens, o.position⟩ with
  | error fault => exact .refusedBrace opens ht
  | ok a' => exact .brace opens hb ha ht

/-- What any character does outside. -/
theorem move_outside {o : Outlook} (hblocks : o.blocks.Founded) (c : Char) :
    Move (outside o) c ((outside o).read c) := by
  by_cases hopen : o.marks.remember 2 c = Comments.openMark
  · obtain rfl : '*' = c := Option.some.inj (Text.getLast?_of_remember (by decide) hopen)
    rw [read_outside_openMark hopen]
    exact .openComment hopen
  by_cases hclose : o.marks.remember 2 c = Comments.closeMark
  · obtain rfl : '/' = c := Option.some.inj (Text.getLast?_of_remember (by decide) hclose)
    rw [read_outside_closeMark hclose]
    exact .strayMark hclose
  by_cases hkey : o.words.remember 7 c = Imports.keyword
  · obtain rfl : 't' = c := Option.some.inj (Text.getLast?_of_remember (by decide) hkey)
    rw [read_outside_keyword hkey]
    exact .openStatement hkey
  -- no window is a mark: the character decides
  have hquiet : o.Quiet c := ⟨hopen, hclose, hkey⟩
  by_cases hq : isQuote c = true
  · rw [read_outside_quote hquiet hq]
    exact .openLiteral hq
  by_cases hbo : c = '{'
  · subst hbo
    exact move_brace true hblocks hquiet
  by_cases hbc : c = '}'
  · subst hbc
    exact move_brace false hblocks hquiet
  · rw [read_outside_plain hquiet (Bool.eq_false_iff.mpr hq) hbo hbc]
    exact .plain hbo hbc (Bool.eq_false_iff.mpr hq)

/-- What any character does in a literal. -/
theorem move_inLiteral {q : Char} {o : Outlook} (hq : isQuote q = true) (c : Char) :
    Move (inLiteral q o) c ((inLiteral q o).read c) := by
  by_cases hc : c = q
  · subst hc
    rw [read_inLiteral_end hq]
    exact .closeLiteral
  · rw [read_inLiteral_inside hc]
    exact .literal hc

/-- What any character does in a comment. -/
theorem move_inComment (o : Outlook) (c : Char) : Move (inComment o) c ((inComment o).read c) := by
  by_cases hclose : o.marks.remember 2 c = Comments.closeMark
  · obtain rfl : '/' = c := Option.some.inj (Text.getLast?_of_remember (by decide) hclose)
    rw [read_inComment_end hclose]
    exact .closeComment
  · rw [read_inComment_inside hclose]
    exact .comment

/-- What any character does in a statement. -/
theorem move_inStatement (begun : Text) (q : Quote) (o : Outlook) (c : Char) :
    Move (inStatement begun q o) c ((inStatement begun q o).read c) := by
  by_cases hbroken : c = '\n' ∨ o.words.remember 7 c = Imports.keyword
  · rw [read_inStatement_broken hbroken]
    exact .breakStatement hbroken
  obtain ⟨hn, hk⟩ := not_or.mp hbroken
  by_cases hend : c = ';' ∧ q.next c = none
  · obtain ⟨rfl, hq⟩ := hend
    rw [read_inStatement_end hq]
    exact .closeStatement hq
  · rw [read_inStatement_inside hk hn hend]
    exact .statement hend

/-- In a reached state every character is one of the moves. -/
theorem Reached.move (h : Reached p s) (c : Char) : Move s c (s.read c) := by
  cases h with
  | outside hplace hblocks hbacked hbalanced => exact move_outside hblocks c
  | inLiteral hq hplace hblocks hopen => exact move_inLiteral hq c
  | inComment hplace hblocks => exact move_inComment _ c
  | inStatement hplace hblocks hbalanced => exact move_inStatement _ _ _ c

/-- Where a reached state stands. -/
theorem Reached.cursor (h : Reached p s) : s.cursor.index = p.index ∧ s.cursor.line = p.line := by
  cases h with
  | outside hplace _ _ _ => exact hplace ▸ ⟨rfl, rfl⟩
  | inLiteral _ hplace _ _ => exact hplace ▸ ⟨rfl, rfl⟩
  | inComment hplace _ => exact hplace ▸ ⟨rfl, rfl⟩
  | inStatement hplace _ _ => exact hplace ▸ ⟨rfl, rfl⟩

/-- In every reached state the open blocks are founded. -/
theorem Reached.founded (h : Reached p s) : s.blocks.Founded := by
  cases h with
  | outside _ hblocks _ _ => exact hblocks
  | inLiteral _ _ hblocks _ => exact hblocks
  | inComment _ hblocks => exact hblocks
  | inStatement _ hblocks _ => exact hblocks

/-! ## Runs

  Induction over a run goes by its last character, since that is what invariants are kept by. -/

/-- A run that fails has come to a character that is refused. -/
theorem run_error : ∀ {t : Text} {s : State} {f : Failure}, run input s t = .error f →
    ∃ u c v next fault, t = u ++ c :: v ∧ run input s u = .ok next ∧ next.read c = .error fault ∧
      f = (next.look c).cursor.failure input fault
  | [], s, f, h => absurd h (by simp [run])
  | c :: t, s, f, h => by
    cases hread : s.read c with
    | error fault =>
      rw [run_cons_of_error hread] at h
      exact ⟨[], c, t, s, fault, rfl, rfl, hread, (Except.error.inj h).symm⟩
    | ok next =>
      rw [run_cons_of_ok hread] at h
      obtain ⟨u, d, v, after, fault, rfl, hrun, hrefused, hf⟩ := run_error h
      exact ⟨c :: u, d, v, after, fault, rfl, (run_cons_of_ok hread u).trans hrun, hrefused, hf⟩

/-- The last character of a text is read in the state behind the others. -/
theorem run_concat (h : run input s (t ++ [c]) = .ok s') :
    ∃ next, run input s t = .ok next ∧ next.read c = .ok s' := by
  cases hrun : run input s t with
  | error failure =>
    obtain ⟨u, d, v, next, fault, rfl, hnext, hrefused, -⟩ := run_error hrun
    rw [List.append_assoc, run_append _ hnext, List.cons_append, run_cons_of_error hrefused] at h
    exact absurd h (by simp)
  | ok next =>
    rw [run_append [c] hrun] at h
    obtain ⟨after, hread, hafter⟩ := run_cons_eq_ok h
    obtain rfl : after = s' := Except.ok.inj hafter
    exact ⟨next, rfl, hread⟩

/-- What the start has and every move keeps holds behind every text that is read. -/
theorem run_ind {motive : Text → State → Prop} (start : motive [] {})
    (move : ∀ {u s c s'}, run input {} u = .ok s → Move s c (.ok s') → motive u s →
      motive (u ++ [c]) s') (h : run input {} t = .ok s) : motive t s := by
  induction t using List.reverseRecOn generalizing s with
  | nil =>
    obtain rfl : {} = s := Except.ok.inj h
    exact start
  | append_singleton t c ih =>
    obtain ⟨before, hrun, hread⟩ := run_concat h
    have hmove := (reached_start.run hrun).move c
    rw [hread] at hmove
    exact move hrun hmove (ih hrun)

/-- A text that is parsed is read to its end, outside of all blocks; the statements stand behind everything
else. -/
theorem parse_eq_ok {tree : Node} (h : Node.parse t = .ok tree) : ∃ s, run t {} t = .ok s ∧
    s.blocks.depth = 0 ∧ tree = Reading.withStatements s.blocks.sheet s.imports.records := by
  obtain ⟨s, hrun, hfinish⟩ := bind_eq_ok.mp h
  refine ⟨s, hrun, ?_⟩
  rw [finish] at hfinish
  split at hfinish
  · exact absurd hfinish (by simp)
  · rename_i hdepth
    split at hfinish
    · exact absurd hfinish (by simp)
    · exact ⟨Nat.eq_zero_of_not_pos hdepth, (Except.ok.inj hfinish).symm⟩

/-! ## Windows

  A filter that was closed or opened has an empty window, so a window may hold less than what was read
  last. -/

/-- The windows of both filters end the text. -/
structure Windowed (u : Text) (s : State) : Prop where
  marks : s.comments.recent <:+ u
  words : s.imports.recent <:+ u

/-- A window that is shown a character goes on ending the text. -/
theorem remember_suffix_concat {seen : Text} (limit : Nat) (h : seen <:+ u) (c : Char) :
    seen.remember limit c <:+ u ++ [c] :=
  (Text.remember_suffix limit seen c).trans (List.suffix_append_self_iff.mpr h)

/-- A move keeps what the windows hold. -/
theorem Windowed.move (h : Windowed u s) (hmove : Move s c (.ok s')) : Windowed (u ++ [c]) s' := by
  obtain ⟨hmarks, hwords⟩ := h
  have hmarks' := remember_suffix_concat 2 hmarks c
  have hwords' := remember_suffix_concat 7 hwords c
  -- a filter that becomes active or ends forgets what it was shown
  cases hmove with
  | openComment _ => exact ⟨List.nil_suffix, hwords'⟩
  | openStatement _ => exact ⟨hmarks', List.nil_suffix⟩
  | closeComment => exact ⟨List.nil_suffix, hwords'⟩
  | closeStatement _ => exact ⟨hmarks', List.nil_suffix⟩
  | openLiteral _ | brace _ _ _ _ | plain _ _ _ | literal _ | closeLiteral | comment | statement _ =>
    exact ⟨hmarks', hwords'⟩

/-- Behind a text, the windows hold the end of it, or less. -/
theorem windowed_of_run (h : run input {} t = .ok s) : Windowed t s :=
  run_ind ⟨List.nil_suffix, List.nil_suffix⟩ (fun _ hmove h => h.move hmove) h

end Scan.State

/-! ## Refusals

  The converse of the moves that fail: which marks a fault is about. -/

/-- The marks of a fault: what the text ends with through the offending character. -/
def Fault.marks : Fault → List Text
  | .unmatchedClose => [['\x7d']]
  | .nestedBlock => [['\x7b']]
  | .unmatchedCommentClose => [Comments.closeMark]
  | .missingSemicolon => [['\n'], Imports.keyword]
  | .unbalancedBraces => []

namespace Scan.State

open Lookahead

variable {u : Text} {s : State} {c : Char} {fault : Fault}

/-- A character is refused because it completes a mark of the fault. -/
theorem Move.refused (hmove : Move s c (.error fault)) (h : Windowed u s) :
    ∃ mark ∈ fault.marks, mark <:+ u ++ [c] ∧ mark.getLast? = some c := by
  cases hmove with
  | strayMark hmark =>
    exact ⟨Comments.closeMark, List.mem_cons_self, hmark ▸ remember_suffix_concat 2 h.marks '/', rfl⟩
  | @refusedBrace o a _ opens ht =>
    -- An opening brace is refused in a rule, a closing one with nothing open: either way the mark
    -- is the brace.
    have hfault : fault.marks = [[if opens then '{' else '}']] := by
      cases opens with
      | true =>
        rw [Assembly.take_opens] at ht
        split at ht
        · exact absurd ht (by simp)
        · obtain rfl := Except.error.inj ht
          rfl
      | false =>
        obtain ⟨_ | ⟨n, outer⟩, sheet⟩ := a
        · obtain rfl : Fault.unmatchedClose = fault := by simpa [Assembly.take] using ht
          rfl
        · exact absurd ht (by simp [Assembly.take])
    exact ⟨_, hfault ▸ List.mem_cons_self, List.suffix_append u _, rfl⟩
  | breakStatement hbroken =>
    rcases hbroken with rfl | hkey
    · exact ⟨['\n'], List.mem_cons_self, List.suffix_append u _, rfl⟩
    · obtain rfl : 't' = c := Option.some.inj (Text.getLast?_of_remember (by decide) hkey)
      exact ⟨Imports.keyword, by decide, hkey ▸ remember_suffix_concat 7 h.words 't', rfl⟩

end Scan.State

end StyleFold
