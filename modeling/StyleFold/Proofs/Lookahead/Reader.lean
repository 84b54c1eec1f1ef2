/-
  Reader — reading a stylesheet with lookahead, in two stages.

  The scan handles one character at a time: it finds a mark only when the last character of the mark is
  there, and takes back what it did with the others.  The reader of this module may look ahead, so it
  decides at the first character of a mark, and it keeps no window, no filter and no depth.

  Nothing in this module is about the scan.  It is a second program for the same task, written so that
  what it does can be seen, and it is shown elsewhere to give the same answers.

  1. **Positions** — how many characters stand before a character, and on which line it stands.
  2. **Looking ahead** — `through?` cuts a text behind the first occurrence of a mark,
     `StatementEnd.of` finds the end of an import statement.
  3. **Stage 1** — `Lexeme.first` takes one lexeme off a text, `Lexeme.all` all of them; `Reading.of`
     gathers from the lexemes the *segments*, which are the pending texts with the braces behind them,
     and the import statements.
  4. **Stage 2** — `Assembly.build` builds the tree from the segments with a stack of open blocks.
  5. **The reader** — `Node.read` runs both.  Either stage may find a fault: the reader reports the one
     that stands first, and at the end of the text open blocks come before an open statement.
-/
import StyleFold.Scan.Sheet

namespace StyleFold.Lookahead

/-! ## Positions

  Counted from zero and from one, as the scan does. -/

/-- A place between two characters of a text. -/
structure Position where
  /-- Number of characters before it. -/
  index : Nat := 0
  /-- One more than the number of line feeds before it. -/
  line : Nat := 1
  deriving DecidableEq, Inhabited

namespace Position

/-- The place behind `t`. -/
def past (p : Position) (t : Text) : Position := ⟨p.index + t.length, p.line + t.count '\n'⟩

/-- The place of a character that stands here: a line feed belongs to the line that it begins. -/
def of (p : Position) (c : Char) : Position := ⟨p.index, p.line + [c].count '\n'⟩

@[simp] theorem past_nil (p : Position) : p.past [] = p := rfl

/-- Behind two texts, one after the other. -/
@[simp] theorem past_past (p : Position) (s t : Text) : (p.past s).past t = p.past (s ++ t) := by
  simp [past, Nat.add_assoc]

end Position

/-! ## Looking ahead

  Neither function may look at a literal as such: a comment ends wherever its end mark stands, and
  quotes in a statement are followed by `StatementEnd.of` itself. -/

/-- The text through the first occurrence of `mark`, and the text behind it. -/
def through? (mark : Text) : Text → Option (Text × Text)
  | [] => none
  | c :: t =>
    if mark.isPrefixOf (c :: t) then some (mark, (c :: t).drop mark.length)
    else (through? mark t).map fun cut => (c :: cut.1, cut.2)

/-- How a text ends as the rest of an import statement. -/
inductive StatementEnd
  /-- With the semicolon that is the last character of `body`. -/
  | closed (body rest : Text)
  /-- Too early, at a line feed or at the last character of another keyword. -/
  | broken (before : Text) (offending : Char)
  /-- Not at all. -/
  | unfinished
  deriving DecidableEq, Inhabited

namespace StatementEnd

/-- The same end, seen from one character earlier. -/
def behind (c : Char) : StatementEnd → StatementEnd
  | closed body rest => closed (c :: body) rest
  | broken before offending => broken (c :: before) offending
  | unfinished => unfinished

/-- The end of a statement whose rest is read with literal `q` open. -/
def of (q : Quote) : Text → StatementEnd
  | [] => unfinished
  | c :: t =>
    if Imports.keyword.isPrefixOf (c :: t) then broken Imports.keywordStart 't'
    else if c = '\n' then broken [] c
    else if c = ';' ∧ q.next c = none then closed [c] t
    else (of (q.next c) t).behind c

end StatementEnd

/-! ## Stage 1

  A lexeme is not empty, so taking lexemes off a text ends. -/

/-- The smallest parts that stage 1 tells apart. -/
inductive Lexeme
  /-- A character without a meaning of its own. -/
  | plain (c : Char)
  /-- A string literal with its quotes. -/
  | literal (t : Text)
  /-- A comment with its marks. -/
  | comment (t : Text)
  /-- An import statement from the keyword through the semicolon. -/
  | statement (t : Text)
  /-- A brace outside of literals. -/
  | brace (opens : Bool)
  /-- A comment or a literal that is not closed: all the rest of the text. -/
  | unclosed (t : Text)
  /-- An import statement that is not closed: all the rest of the text. -/
  | openStatement (t : Text)
  /-- A fault at the character that stands behind `before`. -/
  | faulty (before : Text) (offending : Char) (fault : Fault)
  deriving DecidableEq, Inhabited

namespace Lexeme

/-- The characters of the lexeme; of a fault those before the offending one. -/
def text : Lexeme → Text
  | plain c => [c]
  | literal t | comment t | statement t | unclosed t | openStatement t => t
  | brace opens => if opens then ['{'] else ['}']
  | faulty before _ _ => before

/-- The lexeme that a text begins with, and the text behind it.  Nothing is read behind a fault. -/
def first (c : Char) (t : Text) : Lexeme × Text :=
  if Comments.openMark.isPrefixOf (c :: t) then
    match through? Comments.closeMark (t.drop 1) with
    | some (body, rest) => (comment (Comments.openMark ++ body), rest)
    | none => (unclosed (c :: t), [])
  else if Comments.closeMark.isPrefixOf (c :: t) then
    (faulty ['*'] '/' .unmatchedCommentClose, [])
  else if Imports.keyword.isPrefixOf (c :: t) then
    match StatementEnd.of none (t.drop 6) with
    | .closed body rest => (statement (Imports.keyword ++ body), rest)
    | .broken before offending =>
      (faulty (Imports.keyword ++ before) offending .missingSemicolon, [])
    | .unfinished => (openStatement (c :: t), [])
  else if isQuote c then
    match through? [c] t with
    | some (body, rest) => (literal (c :: body), rest)
    | none => (unclosed (c :: t), [])
  else if c = '{' then (brace true, t)
  else if c = '}' then (brace false, t)
  else (plain c, t)

end Lexeme

/-- How a text begins in which the mark is found: with the mark, or with a character behind which it is
found. -/
theorem through?_cons {mark : Text} {c : Char} {t body rest : Text}
    (h : through? mark (c :: t) = some (body, rest)) :
    body = mark ∧ mark ++ rest = c :: t ∨
      ¬ mark <+: c :: t ∧ ∃ b, through? mark t = some (b, rest) ∧ body = c :: b := by
  rw [through?] at h
  split at h
  · rename_i hm
    obtain ⟨v, hv⟩ := List.isPrefixOf_iff_prefix.mp hm
    obtain ⟨rfl, rfl⟩ : mark = body ∧ (c :: t).drop mark.length = rest := by simpa using h
    exact .inl ⟨rfl, by rw [← hv, List.drop_left]⟩
  · rename_i hm
    obtain ⟨⟨u, v⟩, hcut, he⟩ := Option.map_eq_some_iff.mp h
    obtain ⟨rfl, rfl⟩ : c :: u = body ∧ v = rest := by simpa using he
    exact .inr ⟨fun hp => hm (List.isPrefixOf_iff_prefix.mpr hp), u, hcut, rfl⟩

/-- What is passed through and what is left make up the text. -/
theorem through?_append {mark : Text} : ∀ {t body rest : Text},
    through? mark t = some (body, rest) → body ++ rest = t
  | [], _, _, h => by simp [through?] at h
  | c :: t, body, rest, h => by
    rcases through?_cons h with ⟨rfl, he⟩ | ⟨-, b, hcut, rfl⟩
    · exact he
    · rw [List.cons_append, through?_append hcut]

/-- How a text with a closed end begins: with the semicolon, or with a character behind which the end
is closed. -/
theorem StatementEnd.closed_cons {q : Quote} {c : Char} {t body rest : Text}
    (h : StatementEnd.of q (c :: t) = .closed body rest) :
    ¬ Imports.keyword <+: c :: t ∧ c ≠ '\n' ∧
      ((c = ';' ∧ q.next c = none) ∧ body = [c] ∧ rest = t ∨
        ¬ (c = ';' ∧ q.next c = none) ∧
          ∃ b, StatementEnd.of (q.next c) t = .closed b rest ∧ body = c :: b) := by
  -- In the order of the search: the keyword, the line feed, the semicolon outside literals, and then
  -- the next character.
  rw [StatementEnd.of] at h
  split at h
  · exact absurd h (by simp)
  · rename_i hk
    have hkeyword : ¬ Imports.keyword <+: c :: t := fun hp => hk (List.isPrefixOf_iff_prefix.mpr hp)
    split at h
    · exact absurd h (by simp)
    · rename_i hn
      refine ⟨hkeyword, hn, ?_⟩
      split at h
      · rename_i hend
        obtain ⟨rfl, rfl⟩ : [c] = body ∧ t = rest := by simpa using h
        exact .inl ⟨hend, rfl, rfl⟩
      · rename_i hend
        refine .inr ⟨hend, ?_⟩
        cases he : StatementEnd.of (q.next c) t with
        | closed b r =>
          rw [he] at h
          obtain ⟨rfl, rfl⟩ : c :: b = body ∧ r = rest := by simpa [behind] using h
          exact ⟨b, rfl, rfl⟩
        | broken b o => rw [he] at h; exact absurd h (by simp [behind])
        | unfinished => rw [he] at h; exact absurd h (by simp [behind])

/-- A closed statement and what is left make up the text. -/
theorem StatementEnd.append_of_closed : ∀ {q : Quote} {t body rest : Text},
    StatementEnd.of q t = .closed body rest → body ++ rest = t
  | _, [], _, _, h => by simp [StatementEnd.of] at h
  | q, c :: t, body, rest, h => by
    obtain ⟨-, -, ⟨-, rfl, rfl⟩ | ⟨-, b, hb, rfl⟩⟩ := closed_cons h
    · rfl
    · rw [List.cons_append, append_of_closed hb]

namespace Lexeme

/-- What stands behind the first lexeme ends the text behind the first character. -/
theorem first_snd_suffix (c : Char) (t : Text) : (first c t).2 <:+ t := by
  unfold first
  split
  · split
    · rename_i body rest hcut
      exact (through?_append hcut ▸ List.suffix_append body rest).trans (List.drop_suffix 1 t)
    · exact List.nil_suffix
  · split
    · exact List.nil_suffix
    · split
      · split
        · rename_i body rest hend
          have hrest : rest <:+ t.drop 6 :=
            StatementEnd.append_of_closed hend ▸ List.suffix_append body rest
          exact hrest.trans (List.drop_suffix 6 t)
        · exact List.nil_suffix
        · exact List.nil_suffix
      · split
        · split
          · rename_i body rest hcut
            exact through?_append hcut ▸ List.suffix_append body rest
          · exact List.nil_suffix
        · split
          · exact List.suffix_refl t
          · split <;> exact List.suffix_refl t

/-- All lexemes of a text, in order. -/
def all : Text → List Lexeme
  | [] => []
  | c :: t =>
    have := (first_snd_suffix c t).length_le
    (first c t).1 :: all (first c t).2
termination_by t => t.length
decreasing_by simp only [List.length_cons]; omega

@[simp] theorem all_nil : all [] = [] := by rw [all]

/-- The lexemes of a text: the first, and those behind it. -/
theorem all_cons (c : Char) (t : Text) : all (c :: t) = (first c t).1 :: all (first c t).2 := by
  rw [all]

end Lexeme

/-- A brace with the text pending before it. -/
structure Segment where
  pending : Text
  /-- Whether the brace opens a block. -/
  opens : Bool
  /-- The line of the brace and the characters before it. -/
  place : Position
  deriving DecidableEq, Inhabited

/-- How the reading of a text ended. -/
inductive Ending
  /-- With its last character. -/
  | complete
  /-- With its last character, inside an import statement. -/
  | openStatement
  /-- Earlier, at a fault. -/
  | faulty (fault : Fault)
  deriving DecidableEq, Inhabited

/-- What stage 1 finds in a text. -/
structure Reading where
  segments : List Segment := []
  statements : List ImportRecord := []
  ending : Ending := .complete
  /-- Where the reading ended. -/
  place : Position
  deriving DecidableEq, Inhabited

namespace Reading

/-- The reading of lexemes that begin at a place, with some text pending there. -/
def of (p : Position) (pending : Text) : List Lexeme → Reading
  | [] => { place := p }
  | l :: ls =>
    let behind := p.past l.text
    match l with
    | .plain _ | .literal _ => of behind (pending ++ l.text) ls
    | .comment _ => of behind [] ls
    | .statement t =>
      let r := of behind pending ls
      { r with statements := ⟨t, behind.line⟩ :: r.statements }
    | .brace opens =>
      let r := of behind [] ls
      { r with segments := ⟨pending, opens, p⟩ :: r.segments }
    | .unclosed _ => { place := behind }
    | .openStatement _ => { ending := .openStatement, place := behind }
    | .faulty _ offending fault => { ending := .faulty fault, place := behind.of offending }

/-- The reading of a whole text. -/
def ofText (t : Text) : Reading := of {} [] (Lexeme.all t)

end Reading

/-! ## Stage 2

  A closing brace attaches the innermost block to the one around it, or to the sheet. -/

/-- A tree under construction: the open blocks, innermost first, and the sheet around them. -/
structure Assembly where
  stack : List Node := []
  sheet : Node := Node.emptySheet
  deriving DecidableEq, Inhabited

namespace Assembly

/-- A finished node becomes a child of the innermost open block, or of the sheet. -/
def attach (a : Assembly) (node : Node) : Assembly :=
  match a.stack with
  | parent :: outer => { a with stack := parent.push node :: outer }
  | [] => { a with sheet := a.sheet.push node }

/-- A block whose closing brace follows some text: for a rule these are the declarations. -/
def closed (pending : Text) : Node → Node
  | .rule line origin selectors _ => .rule line origin selectors (Text.items ';' pending)
  | n@(.importStatement ..) | n@(.block ..) => n

/-- Take in one segment. -/
def take (a : Assembly) (s : Segment) : Except Fault Assembly :=
  match s.opens, a.stack with
  | true, .rule .. :: _ => .error .nestedBlock
  | true, stack => .ok { a with stack := Blocks.nodeOf s.pending.tidy s.place.line :: stack }
  | false, [] => .error .unmatchedClose
  | false, node :: outer => .ok (attach { a with stack := outer } (closed s.pending node))

/-- Take in segments one after another; a fault is located at its brace. -/
def build (input : Text) (a : Assembly) : List Segment → Except Failure Assembly
  | [] => .ok a
  | s :: ss =>
    match a.take s with
    | .ok a => build input a ss
    | .error fault => .error (.locate fault input s.place.index s.place.line)

end Assembly

/-! ## The reader

  Stage 1 stops at the first fault that it sees, so a fault of stage 2 in the segments before it comes
  first. -/

namespace Reading

/-- The sheet of an assembly with the import statements behind everything else. -/
def withStatements (sheet : Node) (statements : List ImportRecord) : Node :=
  statements.foldl (fun sheet r => sheet.push (.importStatement r.line [] r.statement)) sheet

/-- The answer for the text once all segments are taken in. -/
def conclude (input : Text) (r : Reading) (a : Assembly) : Except Failure Node :=
  let fail (fault : Fault) : Except Failure Node :=
    .error (.locate fault input r.place.index r.place.line)
  match r.ending, a.stack with
  | .faulty fault, _ => fail fault
  | _, _ :: _ => fail .unbalancedBraces
  | .openStatement, [] => fail .missingSemicolon
  | .complete, [] => .ok (withStatements a.sheet r.statements)

/-- The reading with further import statements found before it. -/
def after (records : List ImportRecord) (r : Reading) : Reading :=
  { r with statements := records ++ r.statements }

/-- The answer for the text from an assembly on that the segments are taken into. -/
def answer (input : Text) (r : Reading) (a : Assembly) : Except Failure Node :=
  match a.build input r.segments with
  | .ok a => r.conclude input a
  | .error failure => .error failure

end Reading

end StyleFold.Lookahead

namespace StyleFold

/-- The style tree of a text, read with lookahead in two stages. -/
def Node.read (text : Text) : Except Failure Node :=
  (Lookahead.Reading.ofText text).answer text {}

end StyleFold
