/-
  Legible — what the words of a tree are like that was read from a text.

  Whatever text was parsed, its words are not arbitrary: they were cut out of pending text, which is
  what is left of a text when comments, statements and braces are taken away.  From this come all the
  facts about selectors, headers and declarations that merging and printing need.

  1. **Lexemes** — plain characters are neither quotes nor braces, and a literal shows nothing.
  2. **Segments** — so pending text is *neat*: its literals are closed and it shows no brace.
  3. **Statements** — an import statement is the keyword with a rest that ends where it ends.
  4. **Assemblies** — a property of words that neat pending text gives is one of all words of the tree
     that is built (`Assembly.within_build`).
  5. **Trees** — a tree that was read is a sheet of legible nodes, which hold no import statement, and
     all its import statements stand behind them (`Node.legible_of_parse`).
-/
import StyleFold.Proofs.Lookahead.Agreement
import StyleFold.Proofs.Merge.Tally

namespace StyleFold

open Text

/-! ## Lexemes

  Plain characters are plain because none of the other nine beginnings applied. -/

namespace Lookahead

variable {t body rest : Text} {c d q : Char}

/-- What is passed through to a quote ends with it and has no other. -/
theorem through?_single : ∀ {t body rest : Text}, through? [q] t = some (body, rest) →
    ∃ u, body = u ++ [q] ∧ q ∉ u
  | [], _, _, h => by simp [through?] at h
  | c :: t, body, rest, h => by
    rcases through?_cons h with ⟨rfl, -⟩ | ⟨hm, b, hcut, rfl⟩
    · exact ⟨[], rfl, List.not_mem_nil⟩
    · obtain ⟨u, rfl, hu⟩ := through?_single hcut
      refine ⟨c :: u, rfl, fun hmem => ?_⟩
      rcases List.mem_cons.mp hmem with rfl | hmem
      · exact hm (List.prefix_append [q] t)
      · exact hu hmem

end Lookahead

namespace Text

variable {q d : Char}

/-- In a literal the quote is open until it comes again. -/
theorem after_some_of_notMem : ∀ {u : Text}, q ∉ u → Quote.after (some q) u = some q
  | [], _ => rfl
  | c :: u, h => by
    have hc : c ≠ q := fun hc => h (hc ▸ List.mem_cons_self)
    have hnext : Quote.next (some q) c = some q := if_neg hc
    rw [Quote.after_cons, hnext]
    exact after_some_of_notMem fun hu => h (List.mem_cons_of_mem c hu)

/-- A literal leaves no quote open. -/
theorem balanced_literal (hq : isQuote q = true) {u : Text} (hu : q ∉ u) :
    Balanced (q :: (u ++ [q])) := by
  have hopen : Quote.next none q = some q := by simp [Quote.next, hq]
  have hclose : Quote.next (some q) q = none := if_pos rfl
  rw [Balanced, Quote.after_cons, hopen, Quote.after_append, after_some_of_notMem hu,
    Quote.after_cons, hclose, Quote.after_nil]

/-- Inside a literal nothing is shown. -/
theorem showsFrom_some_of_notMem {mark : Text} : ∀ {u : Text}, q ∉ u →
    showsFrom mark (some q) (u ++ [q]) = false
  | [], _ => by simp [showsFrom]
  | c :: u, h => by
    have hc : c ≠ q := fun hc => h (hc ▸ List.mem_cons_self)
    have hnext : Quote.next (some q) c = some q := if_neg hc
    rw [List.cons_append, showsFrom, hnext,
      showsFrom_some_of_notMem fun hu => h (List.mem_cons_of_mem c hu)]
    rfl

/-- A literal hides all but its quotes. -/
theorem hides_literal (hq : isQuote q = true) (hd : isQuote d = false) {u : Text} (hu : q ∉ u) :
    Hides [d] (q :: (u ++ [q])) := by
  have hopen : Quote.next none q = some q := by simp [Quote.next, hq]
  have hne : ¬ d = q := by
    rintro rfl
    rw [hd] at hq
    exact absurd hq (by decide)
  have hpre : [d].isPrefixOf (q :: (u ++ [q])) = false :=
    Bool.eq_false_iff.mpr fun hp => hne (by simpa using hp)
  rw [Hides, showsFrom, hopen, showsFrom_some_of_notMem hu, hpre]
  rfl

end Text

namespace Lookahead

variable {c : Char} {t : Text}

/-- What a lexeme that becomes pending text is like. -/
def Lexeme.Sound : Lexeme → Prop
  | plain c => isQuote c = false ∧ c ≠ '{' ∧ c ≠ '}'
  | literal t => Balanced t ∧ ∀ d, isQuote d = false → Hides [d] t
  | statement t => ∃ body rest rest', t = Imports.keyword ++ body ∧
      StatementEnd.of none rest = .closed body rest'
  | comment _ | brace _ | unclosed _ | openStatement _ | faulty .. => True

/-- All lexemes of a text are what they should be. -/
theorem Lexeme.sound_all (t : Text) : ∀ l ∈ Lexeme.all t, l.Sound := by
  -- Only a statement, a closed literal and a plain character have anything to show.
  induction t using Lexeme.all_ind with
  | nil => rw [all_nil]; exact fun l hl => absurd hl List.not_mem_nil
  | comment h ih => rw [all_comment h]; exact List.forall_mem_cons.mpr ⟨trivial, ih⟩
  | openComment h => rw [all_openComment h]; exact List.forall_mem_singleton.mpr trivial
  | closeMark t => rw [all_closeMark]; exact List.forall_mem_singleton.mpr trivial
  | statement h ih =>
    rw [all_statement h]
    exact List.forall_mem_cons.mpr ⟨⟨_, _, _, rfl, h⟩, ih⟩
  | brokenStatement h => rw [all_brokenStatement h]; exact List.forall_mem_singleton.mpr trivial
  | openStatement h => rw [all_openStatement h]; exact List.forall_mem_singleton.mpr trivial
  | literal hm hq h ih =>
    rw [all_literal hm hq h]
    obtain ⟨u, rfl, hu⟩ := through?_single h
    exact List.forall_mem_cons.mpr
      ⟨⟨balanced_literal hq hu, fun d hd => hides_literal hq hd hu⟩, ih⟩
  | openLiteral hm hq h =>
    rw [all_openLiteral hm hq h]
    exact List.forall_mem_singleton.mpr trivial
  | brace opens t ih => rw [all_brace]; exact List.forall_mem_cons.mpr ⟨trivial, ih⟩
  | plain hm hq hopen hclose ih =>
    rw [all_plain hm hq hopen hclose]
    exact List.forall_mem_cons.mpr ⟨⟨hq, hopen, hclose⟩, ih⟩

/-! ## Segments

  Pending text is put together from plain characters and literals. -/

/-- Pending text: literals are closed and no brace is shown. -/
structure Neat (u : Text) : Prop where
  balanced : Balanced u
  hides_open : Hides ['{'] u
  hides_close : Hides ['}'] u

theorem neat_nil : Neat [] := ⟨balanced_nil, hides_nil _, hides_nil _⟩

theorem Neat.append {s t : Text} (hs : Neat s) (ht : Neat t) : Neat (s ++ t) where
  balanced := hs.balanced.append ht.balanced
  hides_open := hs.hides_open.append_single ht.hides_open hs.balanced
  hides_close := hs.hides_close.append_single ht.hides_close hs.balanced

/-- A character that is neither quote nor brace is neat. -/
theorem neat_singleton (hq : isQuote c = false) (hopen : c ≠ '{') (hclose : c ≠ '}') : Neat [c] where
  balanced := balanced_of_no_quotes fun d hd => by rwa [List.mem_singleton.mp hd]
  hides_open := hides_of_notMem fun h => hopen (List.mem_singleton.mp h).symm
  hides_close := hides_of_notMem fun h => hclose (List.mem_singleton.mp h).symm

/-- A literal is neat. -/
theorem Lexeme.Sound.neat_literal (h : (Lexeme.literal t).Sound) : Neat t :=
  ⟨h.1, h.2 '{' (by decide), h.2 '}' (by decide)⟩

namespace Reading

/-- All pending text of a reading is neat if what is pending at its start is. -/
theorem neat_segments : ∀ {ls : List Lexeme} {p : Position} {u : Text}, (∀ l ∈ ls, l.Sound) →
    Neat u → ∀ s ∈ (Reading.of p u ls).segments, Neat s.pending
  | [], _, _, _, _ => fun s hs => absurd hs List.not_mem_nil
  | l :: ls, p, u, h, hu => by
    have hl := h l List.mem_cons_self
    have hls : ∀ l ∈ ls, l.Sound := fun l' hl' => h l' (List.mem_cons_of_mem l hl')
    intro s hs
    -- pending text grows by plain characters and literals, and begins anew behind comments and braces
    cases l with
    | plain c => exact neat_segments hls (hu.append (neat_singleton hl.1 hl.2.1 hl.2.2)) s hs
    | literal t => exact neat_segments hls (hu.append hl.neat_literal) s hs
    | comment t => exact neat_segments hls neat_nil s hs
    | statement t => exact neat_segments hls hu s hs
    | brace opens =>
      rcases List.mem_cons.mp hs with rfl | hs
      · exact hu
      · exact neat_segments hls neat_nil s hs
    | unclosed t => exact absurd hs List.not_mem_nil
    | openStatement t => exact absurd hs List.not_mem_nil
    | faulty before offending fault => exact absurd hs List.not_mem_nil

/-! ## Statements

  A statement is what the reader cut off, so its end is where the reader found it. -/

/-- The statements of a reading are among its lexemes. -/
theorem statement_mem : ∀ {ls : List Lexeme} {p : Position} {u : Text},
    ∀ r ∈ (Reading.of p u ls).statements, Lexeme.statement r.statement ∈ ls
  | [], _, _ => fun r hr => absurd hr List.not_mem_nil
  | l :: ls, p, u => by
    intro r hr
    cases l with
    | plain c => exact List.mem_cons_of_mem _ (statement_mem r hr)
    | literal t => exact List.mem_cons_of_mem _ (statement_mem r hr)
    | comment t => exact List.mem_cons_of_mem _ (statement_mem r hr)
    | statement t =>
      rcases List.mem_cons.mp hr with rfl | hr
      · exact List.mem_cons_self
      · exact List.mem_cons_of_mem _ (statement_mem r hr)
    | brace opens => exact List.mem_cons_of_mem _ (statement_mem r hr)
    | unclosed t => exact absurd hr List.not_mem_nil
    | openStatement t => exact absurd hr List.not_mem_nil
    | faulty before offending fault => exact absurd hr List.not_mem_nil

end Reading

/-- A keyword that begins before the semicolon of a closed rest ends before it, too. -/
theorem keyword_prefix_of_append {b r : Text} (hb : ';' ∈ b)
    (h : Imports.keyword <+: b ++ r) : Imports.keyword <+: b := by
  rcases Nat.le_total Imports.keyword.length b.length with hle | hle
  · exact List.prefix_of_prefix_length_le h (List.prefix_append b r) hle
  · have hpre := List.prefix_of_prefix_length_le (List.prefix_append b r) h hle
    exact absurd (hpre.subset hb) (by decide)

/-- A statement that is closed has a semicolon. -/
theorem StatementEnd.semicolon_mem : ∀ {q : Quote} {t body rest : Text},
    StatementEnd.of q t = .closed body rest → ';' ∈ body
  | _, [], _, _, h => by simp [StatementEnd.of] at h
  | q, c :: t, body, rest, h => by
    obtain ⟨-, -, ⟨⟨rfl, -⟩, rfl, -⟩ | ⟨-, b, hb, rfl⟩⟩ := closed_cons h
    · exact List.mem_cons_self
    · exact List.mem_cons_of_mem c (semicolon_mem hb)

/-- A closed rest ends where it does, whatever follows it. -/
theorem StatementEnd.closed_append (r : Text) : ∀ {q : Quote} {t body rest : Text},
    StatementEnd.of q t = .closed body rest → StatementEnd.of q (body ++ r) = .closed body r
  | _, [], _, _, h => by simp [StatementEnd.of] at h
  | q, c :: t, body, rest, h => by
    have hsemi := semicolon_mem h
    have happ := append_of_closed h
    obtain ⟨hk, hn, hcases⟩ := closed_cons h
    -- a keyword in front would end before the semicolon, and so stand in the first text as well
    have hkeyword : ¬ Imports.keyword.isPrefixOf (body ++ r) = true := by
      intro hp
      have hbody := keyword_prefix_of_append hsemi (List.isPrefixOf_iff_prefix.mp hp)
      exact hk (happ ▸ hbody.trans (List.prefix_append body rest))
    rcases hcases with ⟨hend, rfl, rfl⟩ | ⟨hend, b, hb, rfl⟩
    · rw [List.cons_append] at hkeyword ⊢
      rw [StatementEnd.of, if_neg hkeyword, if_neg hn, if_pos hend, List.nil_append]
    · rw [List.cons_append] at hkeyword ⊢
      rw [StatementEnd.of, if_neg hkeyword, if_neg hn, if_neg hend, closed_append r hb]
      rfl

/-- What an import statement is like: read again before anything else, it is the same statement. -/
def WellFormed (statement : Text) : Prop := ∃ body, statement = Imports.keyword ++ body ∧
  ∀ rest, StatementEnd.of none (body ++ rest) = .closed body rest

/-- All import statements of a text are well-formed. -/
theorem Reading.wellFormed {t : Text} {p : Position} {u : Text} :
    ∀ r ∈ (Reading.of p u (Lexeme.all t)).statements, WellFormed r.statement := by
  intro r hr
  obtain ⟨body, rest, rest', he, hend⟩ := Lexeme.sound_all t _ (Reading.statement_mem r hr)
  exact ⟨body, he, fun r => StatementEnd.closed_append r hend⟩

end Lookahead

/-! ## Assemblies

  A property of words is kept by everything that an assembly does, if the words that a brace brings in
  have it. -/

/-- All words of the node have the property, wherever the node stands. -/
def Node.Within (P : Word → Prop) (n : Node) : Prop := ∀ path, ∀ x ∈ Tally.words.of path n, P x.2

namespace Node

variable {P : Word → Prop} {line reduced : Nat} {origin : List Nat} {head : Head}
  {selectors declarations : List Text} {children : List Node}

/-- What holds of the words of a rule holds of its selectors and declarations. -/
theorem within_rule_iff : (rule line origin selectors declarations).Within P ↔
    (∀ s ∈ selectors, P (.selector s)) ∧ ∀ d ∈ declarations, P (.declaration d) := by
  constructor
  · intro h
    have h := h []
    rw [Tally.of_rule] at h
    exact ⟨fun s hs => h ([], .selector s) (List.mem_append_left _ (List.mem_map.mpr ⟨s, hs, rfl⟩)),
      fun d hd => h ([], .declaration d) (List.mem_append_right _ (List.mem_map.mpr ⟨d, hd, rfl⟩))⟩
  · rintro ⟨hs, hd⟩ path x hx
    rw [Tally.of_rule] at hx
    rcases List.mem_append.mp hx with hx | hx
    · obtain ⟨s, hmem, rfl⟩ := List.mem_map.mp hx
      exact hs s hmem
    · obtain ⟨d, hmem, rfl⟩ := List.mem_map.mp hx
      exact hd d hmem

/-- An import has one word, its statement. -/
theorem within_importStatement_iff {statement : Text} :
    (importStatement line origin statement).Within P ↔ P (.statement statement) := by
  constructor
  · intro h
    have h := h []
    rw [Tally.of] at h
    exact h _ (List.mem_singleton.mpr rfl)
  · intro h path x hx
    rw [Tally.of] at hx
    obtain rfl := List.mem_singleton.mp hx
    exact h

/-- What holds of the head of a block and within its children holds within the block. -/
theorem within_block (hhead : P (.head head)) (h : ∀ c ∈ children, c.Within P) :
    (block line origin head reduced children).Within P := by
  intro path x hx
  rw [Tally.of_block] at hx
  rcases List.mem_append.mp hx with hx | hx
  · obtain rfl := List.mem_singleton.mp hx
    exact hhead
  · obtain ⟨c, hc, hx⟩ := Tally.mem_all.mp hx
    exact h c hc _ x hx

/-- Which words a tree has does not depend on its path. -/
theorem map_snd_words (n : Node) : ∀ path path', (Tally.words.of path n).map Prod.snd =
    (Tally.words.of path' n).map Prod.snd := by
  induction n using Node.ind with
  | rule line origin selectors declarations =>
    intro path path'
    simp [Tally.of_rule, Tally.words, Function.comp_def]
  | importStatement line origin statement =>
    intro path path'
    rw [Tally.of, Tally.of]
    rfl
  | block line origin head reduced children ih =>
    intro path path'
    rw [Tally.of_block, Tally.of_block, List.map_append, List.map_append, Tally.all_eq_flatMap,
      Tally.all_eq_flatMap, List.map_flatMap, List.map_flatMap]
    have hchildren : children.flatMap (fun c => (Tally.words.of (head.extend path) c).map Prod.snd) =
        children.flatMap fun c => (Tally.words.of (head.extend path') c).map Prod.snd := by
      simp only [List.flatMap]
      rw [List.map_congr_left fun c hc => ih c hc (head.extend path) (head.extend path')]
    rw [hchildren]
    rfl

/-- Paths do not matter to what holds within a node. -/
theorem within_of_path {n : Node} (path : Path) (h : ∀ x ∈ Tally.words.of path n, P x.2) :
    n.Within P := by
  intro path' x hx
  have hmem : x.2 ∈ (Tally.words.of path n).map Prod.snd := by
    rw [map_snd_words n path path']
    exact List.mem_map.mpr ⟨x, hx, rfl⟩
  obtain ⟨y, hy, he⟩ := List.mem_map.mp hmem
  exact he ▸ h y hy

/-- The words of a block are its head and those within its children. -/
theorem within_block_iff : (block line origin head reduced children).Within P ↔
    P (.head head) ∧ ∀ c ∈ children, c.Within P := by
  constructor
  · intro h
    have h := h []
    rw [Tally.of_block] at h
    refine ⟨h ([], .head head) (List.mem_append_left _ (List.mem_singleton.mpr rfl)), ?_⟩
    intro c hc
    refine within_of_path (head.extend []) fun x hx => h x (List.mem_append_right _ ?_)
    exact Tally.mem_all.mpr ⟨c, hc, hx⟩
  · rintro ⟨hhead, h⟩
    exact within_block hhead h

/-- A child brings in its own words, and no others. -/
theorem Within.push {n child : Node} (hn : n.Within P) (hchild : child.Within P) :
    (n.push child).Within P := by
  cases n with
  | rule line origin selectors declarations => exact hn
  | importStatement line origin statement => exact hn
  | block line origin head reduced children =>
    intro path x hx
    have hn := hn path x
    rw [Node.push, Tally.of_block, Tally.all_append] at hx
    rw [Tally.of_block] at hn
    rcases List.mem_append.mp hx with hx | hx
    · exact hn (List.mem_append_left _ hx)
    · rcases List.mem_append.mp hx with hx | hx
      · exact hn (List.mem_append_right _ hx)
      · obtain ⟨c, hc, hx⟩ := Tally.mem_all.mp hx
        rw [List.mem_singleton.mp hc] at hx
        exact hchild _ x hx

end Node

namespace Lookahead.Assembly

variable {P : Word → Prop} {a a' : Assembly}

/-- All words of an assembly have the property. -/
structure Within (P : Word → Prop) (a : Assembly) : Prop where
  stack : ∀ n ∈ a.stack, n.Within P
  sheet : ∃ cs, a.sheet = .block 0 [] .sheet 0 cs ∧ ∀ c ∈ cs, c.Within P

theorem within_start : Within P {} :=
  ⟨fun _ h => absurd h List.not_mem_nil, [], rfl, fun _ h => absurd h List.not_mem_nil⟩

/-- A node brings its own words to the assembly. -/
theorem Within.attach {node : Node} (h : a.Within P) (hnode : node.Within P) :
    (a.attach node).Within P := by
  rcases a with ⟨_ | ⟨parent, outer⟩, sheet⟩
  · obtain ⟨cs, hsheet, hcs⟩ := h.sheet
    refine ⟨fun _ h => absurd h List.not_mem_nil, cs ++ [node], congrArg (Node.push · node) hsheet, ?_⟩
    intro c hc
    rcases List.mem_append.mp hc with hc | hc
    · exact hcs c hc
    · rwa [List.mem_singleton.mp hc]
  · refine ⟨?_, h.sheet⟩
    rintro n hn
    rcases List.mem_cons.mp hn with rfl | hn
    · exact (h.stack parent List.mem_cons_self).push hnode
    · exact h.stack n (List.mem_cons_of_mem parent hn)

/-- A segment brings in the words of its pending text alone. -/
theorem Within.take {s : Segment} (h : a.Within P)
    (hopen : ∀ line, (Blocks.nodeOf s.pending.tidy line).Within P)
    (hclose : ∀ d ∈ items ';' s.pending, P (.declaration d)) (ht : a.take s = .ok a') :
    a'.Within P := by
  rcases s with ⟨pending, _ | _, place⟩
  · rcases a with ⟨_ | ⟨n, outer⟩, sheet⟩
    · exact absurd ht (by simp [Assembly.take])
    · obtain rfl : Assembly.attach ⟨outer, sheet⟩ (closed pending n) = a' := by
        simpa [Assembly.take] using ht
      have hn := h.stack n List.mem_cons_self
      refine Within.attach ⟨fun m hm => h.stack m (List.mem_cons_of_mem n hm), h.sheet⟩ ?_
      -- only a rule takes words from the text before its closing brace
      cases n with
      | rule line origin selectors declarations =>
        exact Node.within_rule_iff.mpr ⟨(Node.within_rule_iff.mp hn).1, hclose⟩
      | importStatement line origin statement => exact hn
      | block line origin head reduced children => exact hn
  · rw [take_opens] at ht
    split at ht
    · obtain rfl := Except.ok.inj ht
      refine ⟨?_, h.sheet⟩
      rintro n hn
      rcases List.mem_cons.mp hn with rfl | hn
      · exact hopen place.line
      · exact h.stack n hn
    · exact absurd ht (by simp)

/-- What segments bring in are the words of their pending texts. -/
theorem Within.build {input : Text} : ∀ {segments : List Segment} {a a' : Assembly}, a.Within P →
    (∀ s ∈ segments, (∀ line, (Blocks.nodeOf s.pending.tidy line).Within P) ∧
      ∀ d ∈ items ';' s.pending, P (.declaration d)) →
    a.build input segments = .ok a' → a'.Within P
  | [], a, a', h, _, hb => by
    obtain rfl : a = a' := by simpa [Assembly.build] using hb
    exact h
  | s :: ss, a, a', h, hs, hb => by
    rw [Assembly.build] at hb
    split at hb
    · rename_i next hnext
      obtain ⟨hopen, hclose⟩ := hs s List.mem_cons_self
      exact Within.build (h.take hopen hclose hnext)
        (fun s' hs' => hs s' (List.mem_cons_of_mem s hs')) hb
    · exact absurd hb (by simp)

end Lookahead.Assembly

/-! ## Trees

  Cutting neat text at delimiters and tidying it leaves neat words. -/

namespace Lookahead

/-- A neat text stays neat when it is tidied. -/
theorem Neat.tidy {t : Text} (h : Neat t) : Neat t.tidy where
  balanced := (thinned_tidy t).balanced_iff.mpr h.balanced
  hides_open := (thinned_tidy t).hides h.hides_open
  hides_close := (thinned_tidy t).hides h.hides_close

/-- Between balanced texts, a part of a neat text is neat. -/
theorem Neat.mid {u t v : Text} (h : Neat (u ++ t ++ v)) (hu : Balanced u) (ht : Balanced t) :
    Neat t :=
  ⟨ht, h.hides_open.mid (by decide) hu, h.hides_close.mid (by decide) hu⟩

/-- The items of a neat text are items, and neat. -/
theorem Neat.item {t s : Text} {d : Char} (h : Neat t) (hd : isQuote d = false)
    (hs : s ∈ items d t) : Item d s ∧ Neat s := by
  obtain ⟨hitem, u, p, v, rfl, hu, rfl⟩ := item_spec hd h.balanced hs
  have hp : Balanced p := (thinned_tidy p).balanced_iff.mp hitem.balanced
  exact ⟨hitem, (h.mid hu hp).tidy⟩

end Lookahead

/-- What the words of a tree are like that was read, those of its import statements apart. -/
def Word.Legible : Word → Prop
  | selector t => Item ',' t ∧ Lookahead.Neat t
  | declaration t => Item ';' t ∧ Lookahead.Neat t
  | head h => ∃ kind header, h = .atRule kind header ∧ AtKind.ofHeader? header = some kind ∧
      Tidied header ∧ Lookahead.Neat header
  | statement _ => False

/-- The block that a neat header begins has legible words. -/
theorem Blocks.legible_nodeOf {u : Text} (h : Lookahead.Neat u) (line : Nat) :
    (nodeOf u.tidy line).Within Word.Legible := by
  unfold nodeOf
  split
  · rename_i kind hkind
    refine Node.within_block ⟨kind, u.tidy, rfl, hkind, tidied_tidy u, h.tidy⟩ ?_
    exact fun c hc => absurd hc List.not_mem_nil
  · refine Node.within_rule_iff.mpr ⟨fun s hs => h.tidy.item (by decide) hs, ?_⟩
    exact fun d hd => absurd hd List.not_mem_nil

/-- What a text with neat pending text before it builds is legible. -/
theorem Lookahead.Assembly.within_legible {input t u : Text} {p : Position} {a : Assembly}
    (hu : Neat u) (hbuild : Assembly.build input {} (Reading.of p u (Lexeme.all t)).segments = .ok a) :
    a.Within Word.Legible := by
  have hneat := Reading.neat_segments (p := p) (Lexeme.sound_all t) hu
  refine within_start.build (fun s hs => ?_) hbuild
  exact ⟨Blocks.legible_nodeOf (hneat s hs), fun d hd => (hneat s hs).item (by decide) hd⟩

/-- The node of an import statement. -/
def ImportRecord.node (r : ImportRecord) : Node := .importStatement r.line [] r.statement

/-- The statements of a reading stand behind the other nodes of its sheet. -/
theorem Lookahead.Reading.withStatements_block (records : List ImportRecord) : ∀ cs : List Node,
    withStatements (.block 0 [] .sheet 0 cs) records =
      .block 0 [] .sheet 0 (cs ++ records.map ImportRecord.node) := by
  induction records with
  | nil => intro cs; simp [withStatements]
  | cons r records ih =>
    intro cs
    have h := ih (cs ++ [r.node])
    rw [List.append_assoc] at h
    exact h

/-- A tree that was read is a sheet of legible nodes with import statements behind them. -/
theorem Node.legible_of_parse {text : Text} {tree : Node} (h : parse text = .ok tree) :
    ∃ (cs : List Node) (records : List ImportRecord),
      tree = .block 0 [] .sheet 0 (cs ++ records.map ImportRecord.node) ∧
      (∀ c ∈ cs, c.Within Word.Legible) ∧ ∀ r ∈ records, Lookahead.WellFormed r.statement := by
  obtain ⟨sheet, hbuild, -, rfl⟩ := reading_of_parse h
  obtain ⟨cs, hsheet, hcs⟩ := (Lookahead.Assembly.within_legible Lookahead.neat_nil hbuild).sheet
  refine ⟨cs, (Lookahead.Reading.ofText text).statements, ?_, hcs, Lookahead.Reading.wellFormed⟩
  obtain rfl : sheet = .block 0 [] .sheet 0 cs := hsheet
  exact Lookahead.Reading.withStatements_block _ cs

end StyleFold
