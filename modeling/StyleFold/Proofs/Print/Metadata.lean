/-
  Metadata — the block in front of a stylesheet, and printed text behind it.

  A block is cut off in front of the sheet and put back in front of the output.  It is put back exactly
  as it was cut off, and there the next compile finds it again, provided that it ends where it ended and
  that nothing behind it makes another.  Neither is clear: a block may hold an end mark that overlaps
  its own start, and the printed sheet may begin with anything that a compressed sheet begins with.

  1. **Blocks** — a block ends with the first end mark, whatever follows (`UserStyle.split_eq_some_iff`); so
     it is cut off from any text that it stands in front of (`UserStyle.IsBlock.split_append`).
  2. **Printed sheets** — a settled sheet whose words show no mark does not begin with a comment, so its
     printed form has no block (`UserStyle.split_print`).
  3. **Outputs** — the output of a compile is a kept block or none, and the printed sheet behind it
     (`Compilation.split_output`).
  4. **Rounds** — a block that is kept is the block of every compile of the output, of its output, and so on
     (`block_of_recompiled`).
-/
import StyleFold.Proofs.Print.Settled

namespace StyleFold

open Text Lookahead

/-! ## Blocks

  The end of a block is the first place where the end mark stands, which is a property of the block
  alone. -/

/-- Whether the mark stands in the text once, at its end. -/
structure Text.EndsAt (mark t : Text) : Prop where
  suffix : mark <:+ t
  once : ∀ u v, t = u ++ mark ++ v → v = []

namespace Text

variable {mark t a b : Text} {c : Char}

/-- A mark ends at itself. -/
theorem endsAt_self (mark : Text) : EndsAt mark mark where
  suffix := List.suffix_refl mark
  once u v h := by
    have hlength := congrArg List.length h
    rw [List.length_append, List.length_append] at hlength
    exact List.length_eq_zero_iff.mp (by omega)

/-- A mark at the front is the whole text. -/
theorem EndsAt.eq_of_prefix (h : EndsAt mark t) (hp : mark <+: t) : t = mark := by
  obtain ⟨v, rfl⟩ := hp
  rw [h.once [] v rfl, List.append_nil]

/-- Where the mark does not stand at the front, the first character does not matter. -/
theorem endsAt_cons_iff (hp : ¬ mark <+: c :: t) : EndsAt mark (c :: t) ↔ EndsAt mark t := by
  constructor
  · rintro ⟨hsuffix, honce⟩
    refine ⟨?_, fun u v he => honce (c :: u) v (congrArg (c :: ·) he)⟩
    rcases List.suffix_cons_iff.mp hsuffix with rfl | hsuffix
    · exact absurd List.prefix_rfl hp
    · exact hsuffix
  · rintro ⟨hsuffix, honce⟩
    refine ⟨hsuffix.trans (List.suffix_cons c t), fun u v he => ?_⟩
    cases u with
    | nil => exact absurd ⟨v, he.symm⟩ hp
    | cons d u =>
      obtain ⟨rfl, rfl⟩ : c = d ∧ t = u ++ mark ++ v := by simpa using he
      exact honce u v rfl

/-- A text is cut behind the first place where the mark stands. -/
theorem cutAfter?_eq_some_iff (hmark : mark ≠ []) : ∀ {t a b : Text},
    cutAfter? mark t = some (a, b) ↔ t = a ++ b ∧ EndsAt mark a
  | [], a, b => by
    rw [cutAfter?, if_neg hmark]
    constructor
    · exact fun h => absurd h (by simp)
    · rintro ⟨he, hends⟩
      obtain ⟨rfl, -⟩ := List.append_eq_nil_iff.mp he.symm
      exact absurd (List.suffix_nil.mp hends.suffix) hmark
  | c :: t, a, b => by
    -- Either the mark is in front, and the part cut off is the mark itself, or it ends where it
    -- ends behind the first character.
    by_cases hp : mark <+: c :: t
    · rw [cutAfter?, if_pos (List.isPrefixOf_iff_prefix.mpr hp)]
      obtain ⟨rest, hrest⟩ := hp
      rw [← hrest, List.take_left, List.drop_left]
      constructor
      · intro h
        obtain ⟨rfl, rfl⟩ : mark = a ∧ rest = b := by simpa using h
        exact ⟨rfl, endsAt_self mark⟩
      · rintro ⟨he, hends⟩
        -- Two fronts of one text are comparable, so the mark in front is the end of every block.
        have hfront : mark <+: a := List.prefix_of_prefix_length_le ⟨rest, he⟩
          (List.prefix_append a b) hends.suffix.length_le
        obtain rfl := hends.eq_of_prefix hfront
        rw [List.append_cancel_left he]
    · rw [cutAfter?, if_neg fun h => hp (List.isPrefixOf_iff_prefix.mp h), Option.map_eq_some_iff]
      constructor
      · rintro ⟨⟨a', b'⟩, hcut, he⟩
        obtain ⟨rfl, rfl⟩ : c :: a' = a ∧ b' = b := by simpa using he
        obtain ⟨rfl, hends⟩ := (cutAfter?_eq_some_iff hmark).mp hcut
        have hp' : ¬ mark <+: c :: a' := fun h => hp (h.trans (List.prefix_append (c :: a') b'))
        exact ⟨rfl, (endsAt_cons_iff hp').mpr hends⟩
      · rintro ⟨he, hends⟩
        cases a with
        | nil => exact absurd (List.suffix_nil.mp hends.suffix) hmark
        | cons d a =>
          obtain ⟨rfl, rfl⟩ : c = d ∧ t = a ++ b := by simpa using he
          have hp' : ¬ mark <+: c :: a := fun h => hp (h.trans (List.prefix_append (c :: a) b))
          exact ⟨(a, b), (cutAfter?_eq_some_iff hmark).mpr ⟨rfl, (endsAt_cons_iff hp').mp hends⟩, rfl⟩

/-- A text is not cut if the mark does not stand in it. -/
theorem cutAfter?_eq_none_iff (hmark : mark ≠ []) : cutAfter? mark t = none ↔ ¬ mark <:+: t := by
  induction t with
  | nil => simp [cutAfter?, hmark]
  | cons c t ih =>
    rw [cutAfter?, List.infix_cons_iff, ← List.isPrefixOf_iff_prefix]
    split
    · rename_i hp
      simp [hp]
    · rename_i hp
      rw [Option.map_eq_none_iff, ih]
      simp [hp]

end Text

namespace UserStyle

/-- What a metadata block is: it begins with the start mark, and the end mark stands in it once, at its
end.  The two may overlap. -/
structure IsBlock (t : Text) : Prop where
  starts : startMark <+: t
  ends : EndsAt endMark t

variable {t block rest : Text}

/-- What is cut off is a block behind the blanks in front. -/
theorem split_eq_some_iff :
    split t = (some block, rest) ↔ t = t.takeWhile isBlank ++ block ++ rest ∧ IsBlock block := by
  have hfront : t.takeWhile isBlank ++ t.trimStart = t := List.takeWhile_append_dropWhile
  constructor
  · intro h
    simp only [split] at h
    split at h
    · rename_i hstart
      split at h
      · rename_i block' rest' hcut
        obtain ⟨rfl, rfl⟩ : block' = block ∧ rest' = rest := by simpa using h
        obtain ⟨he, hends⟩ := (cutAfter?_eq_some_iff (by decide)).mp hcut
        -- The opening mark is no longer than the closing one, which the block contains.
        have hstarts : startMark <+: block' := List.prefix_of_prefix_length_le
          (List.isPrefixOf_iff_prefix.mp hstart) (he ▸ List.prefix_append block' rest')
          (Nat.le_trans (by decide) hends.suffix.length_le)
        exact ⟨by rw [List.append_assoc, ← he, hfront], hstarts, hends⟩
      · exact absurd (congrArg Prod.fst h) (by simp)
    · exact absurd (congrArg Prod.fst h) (by simp)
  · rintro ⟨he, hblock⟩
    have htrim : t.trimStart = block ++ rest := by
      rw [List.append_assoc] at he
      exact List.append_cancel_left (hfront.trans he)
    have hstart : startMark.isPrefixOf (block ++ rest) = true :=
      List.isPrefixOf_iff_prefix.mpr (hblock.starts.trans (List.prefix_append block rest))
    have hcut : cutAfter? endMark (block ++ rest) = some (block, rest) :=
      (cutAfter?_eq_some_iff (by decide)).mpr ⟨rfl, hblock.ends⟩
    simp only [split, htrim, hstart, hcut, if_true]

/-- A block is cut off from any text behind it. -/
theorem IsBlock.split_append (h : IsBlock block) (rest : Text) :
    split (block ++ rest) = (some block, rest) := by
  refine split_eq_some_iff.mpr ⟨?_, h⟩
  -- the start mark begins with a slash, so no blanks stand in front
  have hslash : ['/'] <+: startMark := by decide
  obtain ⟨s, rfl⟩ := hslash.trans h.starts
  have hnone : (['/'] ++ s ++ rest).takeWhile isBlank = [] := List.takeWhile_cons_of_neg (by decide)
  rw [hnone, List.nil_append]

/-- What is split off is a block. -/
theorem isBlock_of_split (h : (split t).1 = some block) : IsBlock block :=
  (split_eq_some_iff.mp (Prod.ext h rfl)).2

/-- A text without both marks in place is left as it is. -/
theorem split_of_not_marked (h : ¬ (startMark <+: t.trimStart ∧ endMark <:+: t.trimStart)) :
    split t = (none, t) := by
  simp only [split]
  split
  · rename_i hstart
    have hend : ¬ endMark <:+: t.trimStart := fun hend =>
      h ⟨List.isPrefixOf_iff_prefix.mp hstart, hend⟩
    rw [(cutAfter?_eq_none_iff (by decide)).mpr hend]
  · rfl

/-- A text with both marks in place has a block. -/
theorem exists_split_of_marked (hstart : startMark <+: t.trimStart) (hend : endMark <:+: t.trimStart) :
    ∃ block rest, split t = (some block, rest) := by
  cases hcut : cutAfter? endMark t.trimStart with
  | none => exact absurd hend ((cutAfter?_eq_none_iff (by decide)).mp hcut)
  | some cut =>
    refine ⟨cut.1, cut.2, ?_⟩
    simp only [split, List.isPrefixOf_iff_prefix.mpr hstart, hcut, if_true]

/-- A text that does not begin with a comment has no block. -/
theorem split_eq_self (h : ¬ Comments.openMark <+: t.trimStart) : split t = (none, t) :=
  split_of_not_marked fun ⟨hstart, _⟩ => h (List.IsPrefix.trans (by decide) hstart)

end UserStyle

/-! ## Printed sheets -/

namespace Node

variable {layout : Layout} {cs : List Node}

/-- A passive header, or nothing, in front of a brace begins no comment. -/
theorem not_comment_header {header : Text} (htidied : Tidied header) (hpassive : Passive header)
    (rest : Text) : ¬ Comments.openMark <+: trimStart (header ++ ' ' :: '\x7b' :: rest) := by
  intro hp
  cases header with
  | nil => exact absurd hp (by simp [trimStart, Comments.openMark, isBlank, blankRanges])
  | cons c header =>
    have htrim : trimStart (c :: header ++ ' ' :: '\x7b' :: rest) = c :: header ++ ' ' :: '\x7b' :: rest :=
      dropWhile_eq_self fun d hd => htidied.head d (by simpa using hd)
    have hspace : Unbridged (c :: header) (' ' :: '\x7b' :: rest) := unbridged_of_head fun d hd => by
      obtain rfl : ' ' = d := by simpa using hd
      exact idle_space.notMem
    rw [htrim] at hp
    have hinside := hspace Comments.openMark List.mem_cons_self [] _ rfl (List.cons_ne_nil c header) hp
    exact (hides_iff (by decide)).mp (hpassive.inert Comments.openMark List.mem_cons_self) [] _ rfl
      balanced_nil hinside

/-- The first line of a legible node without marks is a header in front of a brace. -/
theorem lines_eq_header {n : Node} (hlegible : n.Within Word.Legible) (hinert : n.Within Word.Inert)
    (depth : Nat) : ∃ header tail ls, n.lines depth = ⟨depth, header ++ ' ' :: '\x7b' :: tail⟩ :: ls ∧
      Tidied header ∧ Passive header := by
  cases n with
  | rule line origin selectors declarations =>
    have hss := (within_rule_iff.mp hlegible).1
    have hss' := (within_rule_iff.mp hinert).1
    have htidied : Tidied (join ',' selectors) :=
      tidied_join (by decide) fun s hs => (hss s hs).1.tidied
    have hpassive : Passive (join ',' selectors) :=
      passive_join (by decide) fun s hs => ⟨(hss s hs).2, hss' s hs⟩
    refine ⟨_, ' ' :: join ';' declarations ++ " \x7d".toList, [], ?_, htidied, hpassive⟩
    rw [lines, ruleText]
    simp
  | importStatement line origin statement => exact (within_importStatement_iff.mp hlegible).elim
  | block line origin head reduced children =>
    obtain ⟨kind, header, rfl, -, htidied, hneat⟩ := (within_block_iff.mp hlegible).1
    refine ⟨header, [], importLines (depth + 1) children ++ otherLines (depth + 1) children ++
      [⟨depth, closingText⟩], ?_, htidied, hneat, (within_block_iff.mp hinert).1⟩
    rw [lines]
    rfl

/-- The printed form of a settled sheet without marks does not begin with a comment. -/
theorem not_comment_print (hcolor : layout.color = false) (reduced : Nat) (hcs : ∀ n ∈ cs, n.Settled)
    (hinert : ∀ n ∈ cs, n.isImport = false → n.Within Word.Inert) :
    ¬ Comments.openMark <+: trimStart (print layout (block 0 [] .sheet reduced cs)) := by
  rw [print_sheet]
  -- What is printed first is an import if there is one, and otherwise the header of the first node;
  -- neither begins a comment.
  cases hstatements : cs.filterMap statement? with
  | cons s ss =>
    obtain ⟨body, rfl, -⟩ := wellFormed_of_settled hcs s (hstatements ▸ List.mem_cons_self)
    rw [List.map_cons, List.flatMap_cons, Line.render_eq hcolor]
    exact fun hp => absurd hp (by
      simp [trimStart, Layout.margin, Imports.keyword, Comments.openMark, isBlank, blankRanges])
  | nil =>
    rw [List.map_nil, List.flatMap_nil, List.nil_append]
    cases hothers : cs.filter fun n => !n.isImport with
    | nil => exact fun hp => absurd (List.prefix_nil.mp hp) (by decide)
    | cons n ns =>
      obtain ⟨hmem, hother⟩ := List.mem_filter.mp (hothers ▸ List.mem_cons_self : n ∈ cs.filter _)
      have hother : n.isImport = false := by simpa using hother
      obtain ⟨header, tail, ls, hlines, htidied, hpassive⟩ :=
        lines_eq_header ((hcs n hmem).legible hother) (hinert n hmem hother) 0
      rw [List.flatMap_cons, hlines, List.cons_append, List.flatMap_cons, Line.render_eq hcolor]
      simpa [Layout.margin] using not_comment_header htidied hpassive _

end Node

/-! ## Outputs -/

namespace Compilation

/-- Without a block to keep, the output is the printed sheet. -/
theorem output_of_not_kept {c : Compilation} (h : c.metadata = none ∨ c.settings.preserveMetadata = false) :
    c.output = c.byContent.print c.settings.layout := by
  rw [output]
  cases hmetadata : c.metadata with
  | none => rfl
  | some block =>
    rcases h with h | h
    · exact absurd (hmetadata.symm.trans h) (by simp)
    · exact if_neg (by simp [h])

/-- A block that is kept stands in front of the printed sheet, with a line feed between them. -/
theorem output_of_kept {c : Compilation} {block : Text} (hmetadata : c.metadata = some block)
    (hkept : c.settings.preserveMetadata = true) :
    c.output = block ++ '\n' :: c.byContent.print c.settings.layout := by
  rw [output, hmetadata]
  exact if_pos hkept

/-- A kept block is cut off from the output again, and nothing else, so outputs are told by the printed
sheets. -/
theorem split_output {settings : Settings} {text : Text} {c : Compilation}
    (h : compile settings text = .ok c)
    (hsheet : ¬ Comments.openMark <+: trimStart (c.byContent.print settings.layout)) :
    ∃ metadata filler, Filler filler ∧
      UserStyle.split c.output = (metadata, filler ++ c.byContent.print settings.layout) ∧
      ∀ tree, (ofTree settings metadata tree).output = c.output ↔
        tree.mergeByHeader.mergeByContent.print settings.layout = c.byContent.print settings.layout := by
  obtain ⟨parsed, -, rfl⟩ := ofTree_of_compile h
  cases hpreserve : settings.preserveMetadata with
  | false =>
    have houtput : ∀ metadata tree, (ofTree settings metadata tree).output =
        tree.mergeByHeader.mergeByContent.print settings.layout := fun metadata tree =>
      output_of_not_kept (.inr hpreserve)
    refine ⟨none, [], filler_nil, ?_, fun tree => ?_⟩
    · rw [houtput]
      exact UserStyle.split_eq_self hsheet
    · rw [houtput, houtput]
      exact Iff.rfl
  | true =>
    cases hblock : (UserStyle.split text).1 with
    | none =>
      have houtput : ∀ tree, (ofTree settings none tree).output =
          tree.mergeByHeader.mergeByContent.print settings.layout := fun tree =>
        output_of_not_kept (.inl rfl)
      refine ⟨none, [], filler_nil, ?_, fun tree => ?_⟩
      · rw [houtput]
        exact UserStyle.split_eq_self hsheet
      · rw [houtput, houtput]
        exact Iff.rfl
    | some block =>
      have houtput : ∀ tree, (ofTree settings (some block) tree).output =
          block ++ '\n' :: tree.mergeByHeader.mergeByContent.print settings.layout := fun tree =>
        output_of_kept rfl hpreserve
      refine ⟨some block, ['\n'], fun c hc => List.mem_singleton.mp hc ▸ by decide, ?_, fun tree => ?_⟩
      · rw [houtput]
        exact (UserStyle.isBlock_of_split hblock).split_append _
      · rw [houtput, houtput, List.append_cancel_left_eq, List.cons_inj_right]
        exact Iff.rfl

/-! ## Rounds

  Recompiling is a relation between compiles, so that any number of rounds is one induction. -/

/-- The compilations that come of a compilation when its output is compiled, the output of that, and so on,
with any settings that keep the block. -/
inductive Recompiled (c : Compilation) : Compilation → Prop
  | self : Recompiled c c
  | again {d e : Compilation} {settings : Settings} (h : Recompiled c d)
      (hkept : settings.preserveMetadata = true) (hagain : compile settings d.output = .ok e) :
      Recompiled c e

variable {c d : Compilation} {block : Text}

/-- The output behind a kept block is the printed sheet on a new line. -/
theorem split_output_of_kept (hblock : UserStyle.IsBlock block) (hmetadata : c.metadata = some block)
    (hkept : c.settings.preserveMetadata = true) :
    UserStyle.split c.output = (some block, '\n' :: c.byContent.print c.settings.layout) := by
  rw [output_of_kept hmetadata hkept]
  exact hblock.split_append _

/-- A kept block is carried from round to round. -/
theorem Recompiled.carries (h : Recompiled c d) (hblock : UserStyle.IsBlock block)
    (hmetadata : c.metadata = some block) (hkept : c.settings.preserveMetadata = true) :
    d.metadata = some block ∧ d.settings.preserveMetadata = true := by
  induction h with
  | self => exact ⟨hmetadata, hkept⟩
  | again _ hkept' hagain ih =>
    obtain ⟨parsed, -, rfl⟩ := ofTree_of_compile hagain
    exact ⟨congrArg Prod.fst (split_output_of_kept hblock ih.1 ih.2), hkept'⟩

end Compilation

/-- Exactly the texts with both marks in place have a block, which is cut off behind the blanks in front and
from any text that it stands in front of; and a block that is kept is that of every further compile. -/
theorem block_of_recompiled (settings : Settings) (text : Text) :
    (¬ (UserStyle.startMark <+: text.trimStart ∧ UserStyle.endMark <:+: text.trimStart) →
      UserStyle.split text = (none, text)) ∧
    (UserStyle.startMark <+: text.trimStart ∧ UserStyle.endMark <:+: text.trimStart →
      ∃ block rest, UserStyle.split text = (some block, rest) ∧
        text = text.takeWhile isBlank ++ block ++ rest ∧ UserStyle.IsBlock block) ∧
    (∀ block rest, UserStyle.IsBlock block → UserStyle.split (block ++ rest) = (some block, rest)) ∧
    ∀ c block, compile settings text = .ok c → settings.preserveMetadata = true →
      c.metadata = some block → ∀ d, Compilation.Recompiled c d → d.metadata = some block ∧
        UserStyle.split d.output = (some block, '\n' :: d.byContent.print d.settings.layout) := by
  refine ⟨UserStyle.split_of_not_marked, fun ⟨hstart, hend⟩ => ?_,
    fun block rest hblock => hblock.split_append rest, fun c block hc hkept hmetadata d hd => ?_⟩
  · obtain ⟨block, rest, hsplit⟩ := UserStyle.exists_split_of_marked hstart hend
    exact ⟨block, rest, hsplit, UserStyle.split_eq_some_iff.mp hsplit⟩
  -- What carries the block from round to round is that it is one, whatever is printed behind it.
  · obtain ⟨parsed, -, rfl⟩ := ofTree_of_compile hc
    have hblock : UserStyle.IsBlock block := UserStyle.isBlock_of_split hmetadata
    obtain ⟨hmetadata', hkept'⟩ := hd.carries hblock hmetadata hkept
    exact ⟨hmetadata', Compilation.split_output_of_kept hblock hmetadata' hkept'⟩

/-- A block of which the marks overlap. -/
def overlappingMarks : Text := "/* ==UserStyle==/UserStyle== */".toList

/-- The block is found behind blanks, and again in the output. -/
theorem block_of_recompiled_overlappingMarks :
    ∃ c d, compile {} ("\n ".toList ++ overlappingMarks ++ ".a\x7bx:1\x7d".toList) = .ok c ∧
      c.metadata = some overlappingMarks ∧ compile {} c.output = .ok d ∧
      d.metadata = some overlappingMarks ∧
      UserStyle.split d.output = (some overlappingMarks, "\n.a \x7b x:1 \x7d".toList) := by
  let tree (line : Nat) : Node := .block 0 [] .sheet 0 [.rule line [] [".a".toList] ["x:1".toList]]
  let c (line : Nat) : Compilation := .ofTree {} (some overlappingMarks) (tree line)
  have hsplit : UserStyle.split ("\n ".toList ++ overlappingMarks ++ ".a\x7bx:1\x7d".toList) =
      (some overlappingMarks, ".a\x7bx:1\x7d".toList) := by decide +kernel
  have hparse : Node.parse ".a\x7bx:1\x7d".toList = .ok (tree 1) := by decide +kernel
  have hfirst : compile {} ("\n ".toList ++ overlappingMarks ++ ".a\x7bx:1\x7d".toList) = .ok (c 1) := by
    rw [compile, hsplit]
    exact congrArg (Except.map _) hparse
  have hcarried := (block_of_recompiled {} _).2.2.2 (c 1) overlappingMarks hfirst rfl rfl
  have hprint : ∀ line ∈ [1, 2], (c line).byContent.print {} = ".a \x7b x:1 \x7d".toList := by
    decide +kernel
  have hparse' : Node.parse ('\n' :: (c 1).byContent.print {}) = .ok (tree 2) := by decide +kernel
  have hagain : compile {} (c 1).output = .ok (c 2) := by
    rw [compile, (hcarried (c 1) .self).2]
    exact congrArg (Except.map _) hparse'
  obtain ⟨hmetadata, hsplit'⟩ := hcarried (c 2) (.again .self rfl hagain)
  refine ⟨c 1, c 2, hfirst, rfl, hagain, hmetadata, hsplit'.trans ?_⟩
  exact congrArg (fun css => (some overlappingMarks, '\n' :: css)) (hprint 2 (by decide))

end StyleFold
