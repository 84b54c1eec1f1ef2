/-
  LineBreaks — what becomes of a sheet when its line feeds become spaces.

  Line breaks are dropped when a text is tidied, and blanks are not.  So a line break between two words
  joins them and a space keeps them apart.  The theorem says that this is the only difference between a
  text and its respaced form, and that it shows exactly where a word is joined.

  1. **Respaced texts** — a text with a space for each line feed outside of comments, literals and import
     statements (`respaced`).  The lexemes of an accepted text stay the same but for that.
  2. **Respaced readings** — so its segments have spaced pending texts, and everything else is the same.
  3. **Sources** — the texts that headers, selectors and declarations are made of.  A segment and the
     segment with the spaced text agree, gaps collapsed, exactly if no source has a join.
  4. **Trees** — the respaced text has the same tree, lines and gaps apart, exactly if no source of the
     text has a join (`Node.parse_respaced_iff`).
-/
import StyleFold.Proofs.Lookahead.Composition
import StyleFold.Proofs.Text.Gaps

namespace StyleFold

open Text

/-! ## Respaced texts

  What may not be touched is told by the lexemes: in comments and literals a line feed is a character
  like any other, and in a statement it is a fault. -/

namespace Lookahead

variable {mark t body rest : Text} {c : Char} {q : Quote} {p p' : Position} {u : Text}

/-- A plain line feed as a space, any other lexeme as it is. -/
def Lexeme.spaced : Lexeme → Lexeme
  | plain c => plain (if c = '\n' then ' ' else c)
  | l => l

/-- The text with a space for each line feed outside of comments, literals and import statements, up to
the first fault. -/
def respaced (t : Text) : Text := (Lexeme.all t).flatMap fun l => l.spaced.text

/-- The first lexeme is respaced, and the text behind it. -/
theorem respaced_of_all {l : Lexeme} (h : Lexeme.all t = l :: Lexeme.all rest) :
    respaced t = l.spaced.text ++ respaced rest := by
  rw [respaced, h, List.flatMap_cons, respaced]

/-- So is a lexeme that takes up the text. -/
theorem respaced_of_last {l : Lexeme} (h : Lexeme.all t = [l]) : respaced t = l.spaced.text := by
  rw [respaced, h, List.flatMap_singleton]

/-- What is read through a mark ends with it. -/
theorem through?_suffix : ∀ {t body rest : Text}, through? mark t = some (body, rest) → mark <:+ body
  | [], _, _, h => by simp [through?] at h
  | c :: t, body, rest, h => by
    rcases through?_cons h with ⟨rfl, -⟩ | ⟨-, b, hcut, rfl⟩
    · exact List.suffix_rfl
    · exact (through?_suffix hcut).trans (List.suffix_cons c b)

/-- What is read through a mark is read so whatever follows it. -/
theorem through?_of_append (hmark : mark ≠ []) (r : Text) : ∀ {t body rest : Text},
    through? mark t = some (body, rest) → through? mark (body ++ r) = some (body, r)
  | [], _, _, h => by simp [through?] at h
  | c :: t, body, rest, h => by
    rcases through?_cons h with ⟨rfl, -⟩ | ⟨hm, b, hcut, rfl⟩
    · obtain ⟨m, ms, rfl⟩ := List.exists_cons_of_ne_nil hmark
      have hpre : (m :: ms).isPrefixOf (m :: (ms ++ r)) = true :=
        List.isPrefixOf_iff_prefix.mpr (List.prefix_append (m :: ms) r)
      rw [List.cons_append, through?, if_pos hpre, ← List.cons_append, List.drop_left]
    · have hb := through?_append hcut
      -- a mark at the front would end before the mark at the end of `b`, and so stand in the first text
      have hfront : ¬ mark.isPrefixOf (c :: (b ++ r)) = true := by
        intro hp
        have hle : mark.length ≤ (c :: b).length :=
          (through?_suffix hcut).length_le.trans (Nat.le_succ b.length)
        have hpre : mark <+: c :: b := List.prefix_of_prefix_length_le
          (List.isPrefixOf_iff_prefix.mp hp) (List.prefix_append (c :: b) r) hle
        exact hm (hb ▸ hpre.trans (List.prefix_append (c :: b) rest))
      rw [List.cons_append, through?, if_neg hfront, through?_of_append hmark r hcut]
      rfl

/-- The characters of a text and of the respaced text, one by one. -/
def Respaced (t s : Text) : Prop := List.Forall₂ (fun c d => d = c ∨ c = '\n' ∧ d = ' ') t s

theorem Respaced.refl : ∀ t : Text, Respaced t t
  | [] => .nil
  | _ :: t => .cons (.inl rfl) (Respaced.refl t)

/-- What stands in front may stay as it is. -/
theorem Respaced.append_left {s : Text} (body : Text) (h : Respaced t s) :
    Respaced (body ++ t) (body ++ s) := by
  induction body with
  | nil => exact h
  | cons c body ih => exact .cons (.inl rfl) ih

/-- A line feed in front may become a space, and any other character stays. -/
theorem Respaced.plain {s : Text} (h : Respaced t s) (c : Char) :
    Respaced (c :: t) ((if c = '\n' then ' ' else c) :: s) := by
  by_cases hc : c = '\n'
  · exact .cons (.inr ⟨hc, if_pos hc⟩) h
  · exact .cons (.inl (if_neg hc)) h

/-- A mark without spaces stands at the front of a text if it stands there in the respaced text. -/
theorem Respaced.front : ∀ {mark t s : Text}, Respaced t s → (∀ c ∈ mark, c ≠ ' ') → mark <+: s →
    mark <+: t
  | [], _, _, _, _, _ => List.nil_prefix
  | _ :: _, _, _, .nil, _, h => h
  | m :: mark, _, _, .cons hcd hts, hm, h => by
    obtain ⟨hspace, hmark⟩ := List.forall_mem_cons.mp hm
    obtain ⟨rfl, hfront⟩ := List.cons_prefix_cons.mp h
    rcases hcd with rfl | ⟨-, rfl⟩
    · exact List.cons_prefix_cons.mpr ⟨rfl, Respaced.front hts hmark hfront⟩
    · exact absurd rfl hspace

/-- Respacing makes no mark: where one stands ahead behind it, one did before. -/
theorem Respaced.markAhead {s : Text} (hts : Respaced t s) (h : MarkAhead s) : MarkAhead t := by
  rcases h with h | h | h
  · exact .inl (hts.front (by decide) h)
  · exact .inr (.inl (hts.front (by decide) h))
  · exact .inr (.inr (hts.front (by decide) h))

/-- A space is as plain as a line feed. -/
theorem plain_spaced (hq : isQuote c = false) (hopen : c ≠ '{') (hclose : c ≠ '}') :
    isQuote (if c = '\n' then ' ' else c) = false ∧ (if c = '\n' then ' ' else c) ≠ '{' ∧
      (if c = '\n' then ' ' else c) ≠ '}' := by
  split
  · decide
  · exact ⟨hq, hopen, hclose⟩

/-- The respaced text has the respaced lexemes, as far as nothing is at fault. -/
theorem Lexeme.all_respaced (t : Text) : ∀ {p : Position} {u : Text},
    (Reading.of p u (all t)).ending = .complete →
      Respaced t (respaced t) ∧ all (respaced t) = (all t).map spaced := by
  induction t using Lexeme.all_ind with
  | nil =>
    intro p u _
    rw [respaced, all_nil]
    exact ⟨.nil, all_nil⟩
  | @comment t body rest h ih =>
    intro p u hend
    have hrespaced : respaced (Comments.openMark ++ t) = Comments.openMark ++ (body ++ respaced rest) :=
      (respaced_of_all (all_comment h)).trans (List.append_assoc _ _ _)
    rw [all_comment h] at hend ⊢
    obtain ⟨hrest, hall⟩ := ih hend
    rw [hrespaced, all_comment (through?_of_append (by decide) _ h), hall, ← through?_append h]
    exact ⟨(hrest.append_left body).append_left _, rfl⟩
  | @openComment t h =>
    intro p u _
    have hrespaced : respaced (Comments.openMark ++ t) = Comments.openMark ++ t :=
      respaced_of_last (all_openComment h)
    rw [hrespaced, all_openComment h]
    exact ⟨Respaced.refl _, rfl⟩
  | closeMark t =>
    intro p u hend
    rw [all_closeMark] at hend
    exact absurd hend (by simp [Reading.of])
  | @statement t body rest h ih =>
    intro p u hend
    have hrespaced : respaced (Imports.keyword ++ t) = Imports.keyword ++ (body ++ respaced rest) :=
      (respaced_of_all (all_statement h)).trans (List.append_assoc _ _ _)
    rw [all_statement h] at hend ⊢
    obtain ⟨hrest, hall⟩ := ih hend
    rw [hrespaced, all_statement (StatementEnd.closed_append _ h), hall,
      ← StatementEnd.append_of_closed h]
    exact ⟨(hrest.append_left body).append_left _, rfl⟩
  | brokenStatement h =>
    intro p u hend
    rw [all_brokenStatement h] at hend
    exact absurd hend (by simp [Reading.of])
  | openStatement h =>
    intro p u hend
    rw [all_openStatement h] at hend
    exact absurd hend (by simp [Reading.of])
  | @literal c t body rest hm hq h ih =>
    intro p u hend
    have hrespaced : respaced (c :: t) = c :: (body ++ respaced rest) :=
      respaced_of_all (all_literal hm hq h)
    rw [all_literal hm hq h] at hend ⊢
    obtain ⟨hrest, hall⟩ := ih hend
    have hpoints : Respaced (c :: t) (c :: (body ++ respaced rest)) := by
      rw [← through?_append h]
      exact (hrest.append_left body).append_left [c]
    -- the quote of the respaced text stands before no mark, as marks have no spaces
    rw [hrespaced, all_literal (fun hmark => hm (hpoints.markAhead hmark)) hq
      (through?_of_append (List.cons_ne_nil c []) _ h), hall]
    exact ⟨hpoints, rfl⟩
  | @openLiteral c t hm hq h =>
    intro p u _
    have hrespaced : respaced (c :: t) = c :: t := respaced_of_last (all_openLiteral hm hq h)
    rw [hrespaced, all_openLiteral hm hq h]
    exact ⟨Respaced.refl _, rfl⟩
  | brace opens t ih =>
    intro p u hend
    have hrespaced : respaced ((if opens then '{' else '}') :: t) =
        (if opens then '{' else '}') :: respaced t :=
      (respaced_of_all (all_brace opens t)).trans (by cases opens <;> rfl)
    rw [all_brace] at hend
    obtain ⟨hrest, hall⟩ := ih hend
    rw [hrespaced, all_brace, all_brace, hall]
    exact ⟨hrest.append_left [_], rfl⟩
  | @plain c t hm hq hopen hclose ih =>
    intro p u hend
    have hrespaced : respaced (c :: t) = (if c = '\n' then ' ' else c) :: respaced t :=
      respaced_of_all (all_plain hm hq hopen hclose)
    rw [all_plain hm hq hopen hclose] at hend ⊢
    obtain ⟨hrest, hall⟩ := ih hend
    have hpoints := hrest.plain c
    obtain ⟨hq', hopen', hclose'⟩ := plain_spaced hq hopen hclose
    rw [hrespaced, all_plain (fun hmark => hm (hpoints.markAhead hmark)) hq' hopen' hclose', hall]
    exact ⟨hpoints, rfl⟩

/-! ## Respaced readings

  The lexemes correspond one by one, and so do the segments. -/

end Lookahead

namespace Text

variable {u t : Text} {q : Quote}

/-- Behind a balanced text a text is spaced by itself. -/
theorem spaced_append (hu : u.Balanced) (t : Text) : spaced (u ++ t) = spaced u ++ spaced t := by
  rw [spaced, spacedFrom_append, hu]
  rfl

/-- A text that shows no line feed is spaced already. -/
theorem spacedFrom_eq_self : ∀ {t : Text} {q : Quote}, showsFrom ['\n'] q t = false →
    spacedFrom q t = t
  | [], _, _ => rfl
  | c :: t, q, h => by
    rw [showsFrom, Bool.or_eq_false_iff] at h
    have hfeed : ¬ (q = none ∧ c = '\n') := by
      rintro ⟨rfl, rfl⟩
      exact absurd h.1 (by simp)
    rw [spacedFrom, if_neg hfeed, spacedFrom_eq_self h.2]

end Text

namespace Lookahead

variable {p p' : Position} {u : Text} {s s' : Segment}

/-- A segment, and the segment of the respaced text. -/
structure Segment.Spaced (s s' : Segment) : Prop where
  opens : s'.opens = s.opens
  pending : s'.pending = s.pending.spaced

/-- What the reading of the respaced text has in common with the reading of the text. -/
structure Reading.Spaced (r r' : Reading) : Prop where
  segments : List.Forall₂ Segment.Spaced r.segments r'.segments
  statements : r.statements.map ImportRecord.statement = r'.statements.map ImportRecord.statement
  ending : r.ending = r'.ending

/-- The reading of respaced lexemes. -/
theorem Reading.spaced_of : ∀ (ls : List Lexeme) (p p' : Position) {u : Text}, u.Balanced →
    (∀ l ∈ ls, l.Sound) → Reading.Spaced (of p u ls) (of p' u.spaced (ls.map Lexeme.spaced))
  | [], _, _, _, _, _ => ⟨.nil, rfl, rfl⟩
  | l :: ls, p, p', u, hu, h => by
    obtain ⟨hl, hls⟩ := List.forall_mem_cons.mp h
    -- Outside literals the break becomes a blank, inside them it stays; the pending text must be
    -- balanced for the two to be told apart.
    cases l with
    | plain c =>
      have hc : Balanced [c] := balanced_of_no_quotes fun d hd => by
        rw [List.mem_singleton.mp hd]
        exact hl.1
      have hspaced : u.spaced ++ [if c = '\n' then ' ' else c] = (u ++ [c]).spaced := by
        rw [spaced_append hu]
        simp [Text.spaced, spacedFrom]
      have ih := spaced_of ls (p.past [c]) (p'.past [if c = '\n' then ' ' else c]) (hu.append hc) hls
      rw [← hspaced] at ih
      exact ih
    | literal t =>
      have hspaced : u.spaced ++ t = (u ++ t).spaced := by
        rw [spaced_append hu, Text.spaced.eq_1 t, spacedFrom_eq_self (hl.2 '\n' (by decide))]
      have ih := spaced_of ls (p.past t) (p'.past t) (hu.append hl.1) hls
      rw [← hspaced] at ih
      exact ih
    | comment t => exact spaced_of ls (p.past t) (p'.past t) balanced_nil hls
    | statement t =>
      have ih := spaced_of ls (p.past t) (p'.past t) hu hls
      exact ⟨ih.segments, congrArg (t :: ·) ih.statements, ih.ending⟩
    | brace opens =>
      have ih := spaced_of ls (p.past (Lexeme.brace opens).text) (p'.past (Lexeme.brace opens).text)
        balanced_nil hls
      exact ⟨.cons ⟨rfl, rfl⟩ ih.segments, ih.statements, ih.ending⟩
    | unclosed t => exact ⟨.nil, rfl, rfl⟩
    | openStatement t => exact ⟨.nil, rfl, rfl⟩
    | faulty before offending fault => exact ⟨.nil, rfl, rfl⟩

end Lookahead

/-! ## Sources

  A view that collapses gaps sees a tidied text and its respaced form alike, unless the text has a join. -/

/-- Lines are not seen, and of a run of blank characters one space. -/
def View.collapsed : View := ⟨fun _ => 0, collapse⟩

namespace AtKind

variable {header header' : Text} {t : Text}

/-- No word that opens an at-rule has blank characters. -/
theorem opener_not_blank : ∀ opener ∈ openers, ∀ c ∈ opener.1, isBlank c = false := by decide +kernel

/-- Headers that begin with the same words open the same at-rule. -/
theorem ofHeader?_congr (h : ∀ opener ∈ openers, opener.1 <+: header ↔ opener.1 <+: header') :
    ofHeader? header = ofHeader? header' := by
  by_cases hopener : ∃ opener ∈ openers, opener.1 <+: header
  · obtain ⟨opener, hmem, hp⟩ := hopener
    rw [ofHeader?_of_opener hmem hp, ofHeader?_of_opener hmem ((h opener hmem).mp hp)]
  · have hnone : ∀ opener ∈ openers, ¬ opener.1 <+: header := fun opener hmem hp =>
      hopener ⟨opener, hmem, hp⟩
    rw [ofHeader?_eq_none_iff.mpr hnone, eq_comm, ofHeader?_eq_none_iff]
    exact fun opener hmem hp => hnone opener hmem ((h opener hmem).mpr hp)

/-- Which at-rule a header opens does not depend on its gaps. -/
theorem ofHeader?_collapse (header : Text) : ofHeader? (collapse header) = ofHeader? header :=
  ofHeader?_congr fun opener hopener => prefix_collapse_iff (opener_not_blank opener hopener)

/-- The spaced text opens an at-rule only if the text does. -/
theorem ofHeader?_of_spaced (h : ofHeader? t.tidy = none) : ofHeader? t.spaced.tidy = none := by
  rw [ofHeader?_eq_none_iff] at h ⊢
  intro opener hopener hp
  exact h opener hopener (prefix_tidy_of_spaced (opener_not_blank opener hopener) hp)

end AtKind

namespace Lookahead

variable {s s' : Segment} {ss ss' : List Segment} {inRule : Bool}

/-- The texts from which the header, the selectors or the declarations of a segment are made. -/
def Segment.sources (inRule : Bool) (s : Segment) : List Text :=
  if s.opens then if s.opensRule then pieces ',' s.pending else [s.pending]
  else if inRule then pieces ';' s.pending else []

/-- The texts from which headers, selectors and declarations are made. -/
def sources (inRule : Bool) : List Segment → List Text
  | [] => []
  | s :: ss => s.sources inRule ++ sources s.opensRule ss

/-- The sources of a text. -/
def sourcesOf (text : Text) : List Text := sources false (Reading.ofText text).segments

/-- The block that a header begins, gaps collapsed. -/
theorem seen_nodeOf_collapsed (header : Text) (line : Nat) :
    (Blocks.nodeOf header line).seen .collapsed = match AtKind.ofHeader? header with
      | some kind => .block 0 [] (.atRule kind (collapse header)) 0 []
      | none => .rule 0 [] ((items ',' header).map collapse) [] :=
  Blocks.seen_nodeOf .collapsed header line

/-- The blocks agree exactly if no source has a join. -/
theorem nodeOf_spaced_iff (t : Text) (line line' : Nat) :
    (Blocks.nodeOf t.tidy line).seen .collapsed = (Blocks.nodeOf t.spaced.tidy line').seen .collapsed ↔
      ∀ x ∈ (if (AtKind.ofHeader? t.tidy).isNone then pieces ',' t else [t]), JoinFree x := by
  rw [seen_nodeOf_collapsed, seen_nodeOf_collapsed]
  cases hkind : AtKind.ofHeader? t.tidy with
  | none =>
    rw [AtKind.ofHeader?_of_spaced hkind, items_tidy (by decide), items_tidy (by decide)]
    simp only [Option.isNone_none, if_true]
    rw [← items_spaced_iff (by decide)]
    exact ⟨fun h => by injection h, fun h => by rw [h]⟩
  | some kind =>
    simp only [Option.isNone_some, Bool.false_eq_true, if_false, List.forall_mem_singleton]
    -- The keyword is found in the header as in its collapsed form, so the kinds agree as soon as
    -- the collapsed headers do.
    rw [← collapse_tidy_spaced_iff]
    constructor
    · intro h
      cases hkind' : AtKind.ofHeader? t.spaced.tidy with
      | none => rw [hkind'] at h; exact absurd h (by simp)
      | some kind' =>
        rw [hkind'] at h
        injection h with _ _ hhead
        injection hhead
    · intro h
      have hkind' : AtKind.ofHeader? t.spaced.tidy = some kind := by
        rw [← AtKind.ofHeader?_collapse, ← h, AtKind.ofHeader?_collapse, hkind]
      rw [hkind', h]

/-- A segment and the respaced one make entries that agree exactly if no source has a join. -/
theorem entry_spaced_iff (h : Segment.Spaced s s') (inRule : Bool) :
    (s.entry inRule).seen .collapsed = (s'.entry inRule).seen .collapsed ↔
      ∀ t ∈ s.sources inRule, JoinFree t := by
  obtain ⟨pending, opens, place⟩ := s
  obtain ⟨pending', opens', place'⟩ := s'
  obtain rfl : opens' = opens := h.opens
  obtain rfl : pending' = pending.spaced := h.pending
  cases opens' with
  | true =>
    refine Iff.trans ?_ (nodeOf_spaced_iff pending place.line place'.line)
    exact ⟨fun h => by injection h, fun h => congrArg Entry.opened h⟩
  | false =>
    cases inRule with
    | false => exact ⟨fun _ t ht => absurd ht List.not_mem_nil, fun _ => rfl⟩
    | true =>
      refine Iff.trans ?_ (items_spaced_iff (by decide) pending)
      exact ⟨fun h => by injection h, fun h => congrArg Entry.closed h⟩

/-- The entries agree exactly if no source has a join. -/
theorem entries_spaced_iff (h : List.Forall₂ Segment.Spaced ss ss') :
    (entries inRule ss).map (Entry.seen .collapsed) =
        (entries inRule ss').map (Entry.seen .collapsed) ↔
      ∀ t ∈ sources inRule ss, JoinFree t := by
  induction h generalizing inRule with
  | nil => exact ⟨fun _ t ht => absurd ht List.not_mem_nil, fun _ => rfl⟩
  | cons hs _ ih =>
    rw [entries, entries, List.map_cons, List.map_cons, List.cons_eq_cons, sources,
      List.forall_mem_append, ← entry_spaced_iff hs inRule]
    refine and_congr_right fun hentry => ?_
    rw [← opensRule_of_entry hentry]
    exact ih

/-- The statements are seen alike where lines are not seen. -/
theorem Reading.Spaced.seen_statements {r r' : Reading} (h : Reading.Spaced r r') :
    (r.statements.map ImportRecord.node).map (Node.seen .collapsed) =
      (r'.statements.map ImportRecord.node).map (Node.seen .collapsed) := by
  have hseen (records : List ImportRecord) :
      (records.map ImportRecord.node).map (Node.seen .collapsed) =
        (records.map ImportRecord.statement).map (.importStatement 0 []) := by
    rw [List.map_map, List.map_map]
    exact List.map_congr_left fun record _ => Node.seen_importStatement
  rw [hseen, hseen, h.statements]

end Lookahead

/-! ## Trees

  Both directions of the equivalence go through the entries, for a tree tells its entries. -/

namespace Node

open Lookahead

variable {text : Text} {tree : Node}

/-- A text and the respaced text have the same tree, lines and gaps apart, exactly if no header, no
selector and no declaration is made from a text with a join. -/
theorem parse_respaced_iff (h : parse text = .ok tree) :
    (∃ tree', parse (respaced text) = .ok tree' ∧ tree'.seen .collapsed = tree.seen .collapsed) ↔
      ∀ t ∈ sourcesOf text, JoinFree t := by
  obtain ⟨-, -, hend, -⟩ := reading_of_parse h
  have hlexemes := (Lexeme.all_respaced text hend).2
  have hspaced : Reading.Spaced (Reading.ofText text) (Reading.ofText (respaced text)) := by
    have := Reading.spaced_of (Lexeme.all text) {} {} balanced_nil (Lexeme.sound_all text)
    rwa [← hlexemes] at this
  -- The condition on the sources is equality of the entries, and that is all the trees can differ
  -- in.
  rw [sourcesOf, ← entries_spaced_iff hspaced.segments]
  constructor
  · rintro ⟨tree', h', hseen⟩
    exact entries_of_seen_eq h h' hspaced.seen_statements hseen.symm
  · intro hentries
    have hagree : Reading.Agree .collapsed .collapsed (fun _ _ => True) false (Reading.ofText text)
        (Reading.ofText (respaced text)) :=
      ⟨hspaced.segments.imp fun _ _ _ => trivial, hentries, hspaced.ending, trivial⟩
    obtain ⟨tree', h', hseen⟩ := seen_eq_of_agree h hagree hspaced.seen_statements
    exact ⟨tree', h', hseen.symm⟩

/-- Line feeds in a header, between selectors, in declarations, in a literal and in a comment, none of them
with words on both sides. -/
def brokenLines : Text :=
  "@media p\n and q\x7b\n.a,\n.b \n.c\x7b\nx:1;\ny:'\n'\n\x7d\n\x7d/*\n*/@import 'c';\n".toList

/-- The tree of that text. -/
def brokenTree : Node :=
  .block 0 [] .sheet 0
    [.block 2 [] (.atRule .media "@media p and q".toList) 0
      [.rule 5 [] [".a".toList, ".b .c".toList] ["x:1".toList, "y:''".toList]],
     .importStatement 11 [] "@import 'c';".toList]

/-- A line feed between two words. -/
def joinedLines : Text := ".a\n.b\x7bx:1\x7d".toList

/-- Two sheets: one breaks its lines where they may become spaces, and the other inside of a selector,
where two words are joined by the scan. -/
theorem parse_respaced_iff_brokenLines :
    parse brokenLines = .ok brokenTree ∧
    (∃ tree', parse (respaced brokenLines) = .ok tree' ∧
      tree'.seen .collapsed = brokenTree.seen .collapsed) ∧
    parse joinedLines = .ok (.block 0 [] .sheet 0 [.rule 2 [] [".a.b".toList] ["x:1".toList]]) ∧
    ¬ ∃ tree', parse (respaced joinedLines) = .ok tree' ∧ tree'.seen .collapsed =
      (block 0 [] .sheet 0 [.rule 2 [] [".a.b".toList] ["x:1".toList]]).seen .collapsed := by
  have hbroken : parse brokenLines = .ok brokenTree := by decide +kernel
  have hjoined : parse joinedLines =
      .ok (.block 0 [] .sheet 0 [.rule 2 [] [".a.b".toList] ["x:1".toList]]) := by decide +kernel
  have hfree : ∀ t ∈ sourcesOf brokenLines, JoinFree t := by decide +kernel
  have hjoin : ¬ ∀ t ∈ sourcesOf joinedLines, JoinFree t := by decide +kernel
  exact ⟨hbroken, (parse_respaced_iff hbroken).mpr hfree, hjoined,
    mt (parse_respaced_iff hjoined).mp hjoin⟩

end Node

end StyleFold
