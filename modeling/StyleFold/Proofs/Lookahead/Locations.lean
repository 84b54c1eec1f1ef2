/-
  Locations — what the positions and lines of a compile say about the text that was given.

  The blanks and the metadata block in front are cut off before the stylesheet is read, and what the
  scan counts begins behind them.  So a location is one in the text behind the block, and one in the whole
  text only as far as nothing was cut off.

  The documents promise positions in the text that was given.  What is true instead is said exactly
  here, with the one case in which both agree.

  1. **Fronts** — what is cut off, and lines behind it.
  2. **Failures** — the offending character stands as many characters and line feeds further on as were
     cut off; a line feed that is refused counts for itself.
  3. **Nodes** — so do the landmarks of all nodes (`compile_displaced`).
-/
import StyleFold.Proofs.Lookahead.Failures
import StyleFold.Proofs.Lookahead.Landmarks
import StyleFold.Proofs.Print.Metadata

namespace StyleFold

open Scan.State

/-! ## Fronts

  What is cut off is told by the text that is left, and has no other definition. -/

/-- The line on which a character stands, counted from 1. -/
def Text.lineOf (t : Text) (index : Nat) : Nat := 1 + (t.take index).count '\n'

namespace Text

variable {t front body : Text} {index : Nat}

/-- A line behind a front is the line in the body and the line feeds of the front. -/
theorem lineOf_append (front body : Text) (index : Nat) :
    (front ++ body).lineOf (front.length + index) = body.lineOf index + front.count '\n' := by
  rw [lineOf, lineOf, List.take_length_add_append, List.count_append]
  omega

/-- Behind a line feed the line is the next one. -/
theorem lineOf_succ (t : Text) (index : Nat) :
    t.lineOf (index + 1) = t.lineOf index + if t[index]? = some '\n' then 1 else 0 := by
  rw [lineOf, lineOf, List.take_add_one, List.count_append]
  cases h : t[index]? with
  | none => simp
  | some c => by_cases hc : c = '\n' <;> simp [hc, Nat.add_assoc]

end Text

namespace UserStyle

variable {t u : Text}

/-- A text is left as it is, or a block is cut off with what stands before it. -/
theorem split_cases (t : Text) : split t = (none, t) ∨
    ∃ u block rest, split t = (some block, rest) ∧ u ++ rest = t ∧ u ≠ [] := by
  rcases h : split t with ⟨_ | block, rest⟩
  · simp only [split] at h
    split at h
    · split at h
      · exact absurd (congrArg Prod.fst h) (by simp)
      · exact .inl h.symm
    · exact .inl h.symm
  · obtain ⟨he, hblock⟩ := split_eq_some_iff.mp h
    refine .inr ⟨t.takeWhile Text.isBlank ++ block, block, rest, rfl, he.symm, fun hnil => ?_⟩
    rw [(List.append_eq_nil_iff.mp hnil).2] at hblock
    exact absurd hblock.starts (by decide)

/-- What is cut off from a text before it is read. -/
def front (t : Text) : Text := t.take (t.length - (split t).2.length)

/-- The front is what makes up the text with what is left of it. -/
theorem front_eq (h : u ++ (split t).2 = t) : front t = u := by
  have hlength : t.length - (split t).2.length = u.length := by
    have := congrArg List.length h
    rw [List.length_append] at this
    omega
  rw [front, hlength]
  exact List.prefix_iff_eq_take.mp ⟨_, h⟩ |>.symm

/-- Front and rest make up the text. -/
theorem front_append (t : Text) : front t ++ (split t).2 = t := by
  obtain ⟨u, hu⟩ : ∃ u, u ++ (split t).2 = t := by
    rcases split_cases t with h | ⟨u, block, rest, h, hu, -⟩
    · exact ⟨[], by rw [h, List.nil_append]⟩
    · exact ⟨u, by rw [h, hu]⟩
  rw [front_eq hu, hu]

/-- Something is cut off from those texts that have a block. -/
theorem front_eq_nil_iff (t : Text) : front t = [] ↔ (split t).1 = none := by
  rcases split_cases t with h | ⟨u, block, rest, h, hu, hne⟩
  · have hu : [] ++ (split t).2 = t := by rw [h, List.nil_append]
    rw [front_eq hu, h]
    exact ⟨fun _ => rfl, fun _ => rfl⟩
  · rw [front_eq (by rw [h, hu]), h]
    simp [hne]

end UserStyle

/-! ## Failures

  Indices are displaced by the characters of the front, and lines by its line feeds. -/

/-- What a failure of the text behind `front` says about the whole text. -/
structure Failure.Displaced (front body : Text) (f : Failure) : Prop where
  /-- The scan of the text behind is refused there. -/
  refused : RefusedAt body f.index f.fault
  /-- The line feeds of `front` are missing, and a line feed that is refused is counted. -/
  line : f.line + front.count '\n' = (front ++ body).lineOf (front.length + f.index + 1)
  /-- The index is that of the offending character if nothing stands in front. -/
  index_iff : f.index = front.length + f.index ↔ front = []
  /-- The line is that of the offending character if neither happens, or one makes up for the other. -/
  line_iff : f.line = (front ++ body).lineOf (front.length + f.index) ↔
    front.count '\n' = if body[f.index]? = some '\n' then 1 else 0

/-- A failure of the text behind is displaced by what was cut off. -/
theorem displaced_of_parse {front body : Text} {f : Failure} (h : Node.parse body = .error f) :
    f.Displaced front body := by
  obtain ⟨hrefused, hf⟩ := refusedAt_of_parse h
  have hline : f.line = body.lineOf (f.index + 1) := congrArg Failure.line hf
  refine ⟨hrefused, ?_, ?_, ?_⟩
  · rw [Nat.add_assoc, Text.lineOf_append, hline]
  · rw [← List.length_eq_zero_iff]
    omega
  · rw [Text.lineOf_append, hline, Text.lineOf_succ]
    omega

/-! ## Nodes

  Lines of nodes are displaced in the same way; they have no indices. -/

/-- What the lines of a tree of the text behind `front` say about the whole text. -/
structure Node.Displaced (front body : Text) (tree : Node) : Prop where
  /-- The nodes below the sheet are those of the landmarks, in order. -/
  landmarks : (preorderAll tree.children).map heading = (landmarks body).map Landmark.node
  /-- A landmark is an opening brace or a semicolon. -/
  mark : ∀ l ∈ Scan.State.landmarks body, (front ++ body)[front.length + l.index]? = some '\x7b' ∨
    (front ++ body)[front.length + l.index]? = some ';'
  /-- The line feeds of `front` are missing. -/
  line : ∀ l ∈ Scan.State.landmarks body,
    l.node.line + front.count '\n' = (front ++ body).lineOf (front.length + l.index)
  /-- The line is that of the landmark if no line feed stands in front. -/
  line_iff : ∀ l ∈ Scan.State.landmarks body,
    l.node.line = (front ++ body).lineOf (front.length + l.index) ↔ '\n' ∉ front

/-- So is every node of a tree of the text behind. -/
theorem Node.displaced_of_parse {front body : Text} {tree : Node} (h : parse body = .ok tree) :
    tree.Displaced front body := by
  have hline : ∀ l ∈ Scan.State.landmarks body, l.node.line = body.lineOf l.index := fun l hl =>
    (place_of_mem_landmarks hl).2
  refine ⟨landmarks_of_parse h, fun l hl => ?_, fun l hl => ?_, fun l hl => ?_⟩
  · have hat : (front ++ body)[front.length + l.index]? = body[l.index]? := by
      rw [List.getElem?_append_right (Nat.le_add_right _ _), Nat.add_sub_cancel_left]
    rw [hat]
    exact (place_of_mem_landmarks hl).1
  · rw [Text.lineOf_append, hline l hl]
  · rw [Text.lineOf_append, hline l hl, ← List.count_eq_zero]
    omega

/-- Failures and nodes of a compile are displaced by what was cut off. -/
theorem compile_displaced (settings : Settings) (text : Text) :
    (UserStyle.front text = [] ↔ (UserStyle.split text).1 = none) ∧
    UserStyle.front text ++ (UserStyle.split text).2 = text ∧
    (∀ f, compile settings text = .error f →
      f.Displaced (UserStyle.front text) (UserStyle.split text).2) ∧
    ∀ c, compile settings text = .ok c →
      c.parsed.Displaced (UserStyle.front text) (UserStyle.split text).2 := by
  refine ⟨UserStyle.front_eq_nil_iff text, UserStyle.front_append text, fun f h => ?_, fun c h => ?_⟩
  · have hparse : (Node.parse (UserStyle.split text).2).map
        (Compilation.ofTree settings (UserStyle.split text).1) = .error f := h
    cases hbody : Node.parse (UserStyle.split text).2 with
    | error g =>
      rw [hbody] at hparse
      obtain rfl : g = f := Except.error.inj hparse
      exact displaced_of_parse hbody
    | ok tree =>
      rw [hbody] at hparse
      exact absurd hparse (by simp [Except.map])
  · obtain ⟨parsed, hbody, rfl⟩ := ofTree_of_compile h
    exact Node.displaced_of_parse hbody

/-- A metadata block on two lines. -/
def twoLineBlock : Text := "/* ==UserStyle==\n==/UserStyle== */".toList

/-- A brace behind the block that closes nothing: it stands at 35 on line 3, and the failure has 1 and 2.  A
rule behind the block: it begins on line 3, and the node has 2. -/
theorem compile_displaced_twoLineBlock :
    (∃ f, compile {} (twoLineBlock ++ ['\n', '\x7d']) = .error f ∧
      f.Displaced twoLineBlock ['\n', '\x7d'] ∧ f.index = 1 ∧ f.line = 2 ∧
      (twoLineBlock ++ ['\n', '\x7d']).lineOf (twoLineBlock.length + 1) = 3) ∧
    ∃ c, compile {} (twoLineBlock ++ "\n.a\x7bx:1\x7d".toList) = .ok c ∧
      c.parsed.Displaced twoLineBlock "\n.a\x7bx:1\x7d".toList ∧
      c.parsed.children = [.rule 2 [] [".a".toList] ["x:1".toList]] := by
  have hparse : Node.parse "\n.a\x7bx:1\x7d".toList =
      .ok (.block 0 [] .sheet 0 [.rule 2 [] [".a".toList] ["x:1".toList]]) := by decide +kernel
  have hfailure : Node.parse ['\n', '\x7d'] =
      .error (.locate .unmatchedClose ['\n', '\x7d'] 1 2) := by decide +kernel
  have hsplit : UserStyle.split (twoLineBlock ++ ['\n', '\x7d']) =
      (some twoLineBlock, ['\n', '\x7d']) := by decide +kernel
  have hsplit' : UserStyle.split (twoLineBlock ++ "\n.a\x7bx:1\x7d".toList) =
      (some twoLineBlock, "\n.a\x7bx:1\x7d".toList) := by decide +kernel
  have herror : compile {} (twoLineBlock ++ ['\n', '\x7d']) =
      .error (.locate .unmatchedClose ['\n', '\x7d'] 1 2) := by
    rw [compile, hsplit]
    exact congrArg (Except.map _) hfailure
  have hok : compile {} (twoLineBlock ++ "\n.a\x7bx:1\x7d".toList) = .ok (Compilation.ofTree {}
      (some twoLineBlock) (.block 0 [] .sheet 0 [.rule 2 [] [".a".toList] ["x:1".toList]])) := by
    rw [compile, hsplit']
    exact congrArg (Except.map _) hparse
  have hdisplaced := (compile_displaced {} (twoLineBlock ++ ['\n', '\x7d'])).2.2.1 _ herror
  have hdisplaced' := (compile_displaced {} (twoLineBlock ++ "\n.a\x7bx:1\x7d".toList)).2.2.2 _ hok
  rw [UserStyle.front_eq (by rw [hsplit]), hsplit] at hdisplaced
  rw [UserStyle.front_eq (by rw [hsplit']), hsplit'] at hdisplaced'
  exact ⟨⟨_, herror, hdisplaced, rfl, rfl, by decide +kernel⟩, _, hok, hdisplaced', rfl⟩

-- a line feed that is refused is counted as if it stood on the next line
example : Node.parse "@import 'a'\n".toList = .error (.locate .missingSemicolon "@import 'a'\n".toList 11 2) ∧
    Text.lineOf "@import 'a'\n".toList 11 = 1 := by decide +kernel

end StyleFold
