/-
  Pending — filters, literals and pending text stay in step.

  The filters judge by their windows, the cursor by its quote, and what they decide is carried out on the
  pending text.  The windows outlive the text they describe, the pending text is dropped by braces and
  comments, and a filter is closed one character late: that the three agree all the same is no property
  of any one of them.

  1. **Texts** — hidden braces, and what a backed window says of the pending text.
  2. **One filter** — at most one is active, and no literal is open in a comment; every step keeps it.
  3. **Requests** — the mark that a filter wants taken off ends the pending text.
  4. **Replay** — reading the pending text again leads to the literal that is open, or to none while a
     statement is captured, and shows no brace; every move keeps it.
  5. **Every scan** — all of it at every stage.
-/
import StyleFold.Proofs.Scan.Stages

namespace StyleFold

/-! ## Texts

  What a window says of the pending text, and the pending text of braces, in terms of texts alone. -/

namespace Text

variable {mark window pending t u v : Text} {c d : Char} {limit : Nat}

/-- A hidden character stays hidden behind other characters, and inside a literal. -/
theorem Hides.concat (h : Hides [d] t) (hc : c ≠ d ∨ Quote.after none t ≠ none) :
    Hides [d] (t ++ [c]) := by
  have hd : [d] ≠ [] := List.cons_ne_nil d []
  rw [hides_iff hd] at h ⊢
  rintro v w he hv ⟨r, rfl⟩
  rcases List.eq_nil_or_concat r with rfl | ⟨r', e, rfl⟩
  · -- the last character is the one that would be shown
    obtain ⟨rfl, hcd⟩ := List.append_inj' he rfl
    obtain rfl : c = d := by simpa using hcd
    exact hc.elim (fun hne => hne rfl) fun hquote => hquote hv
  · have he' : t ++ [c] = (v ++ ([d] ++ r')) ++ [e] := by simpa using he
    exact h v _ (List.append_inj_left' he' rfl) hv (List.prefix_append [d] r')

/-- The front of a text shows no more than the text. -/
theorem Hides.front (hmark : mark ≠ []) (h : Hides mark t) (hu : u <+: t) : Hides mark u := by
  obtain ⟨v, rfl⟩ := hu
  exact Hides.mid (u := []) hmark h balanced_nil

/-- Both braces are hidden. -/
def HidesBraces (t : Text) : Prop := Hides ['{'] t ∧ Hides ['}'] t

theorem hidesBraces_nil : HidesBraces [] := ⟨rfl, rfl⟩

/-- A character behind a text shows no brace if it is none, or if a literal is open. -/
theorem HidesBraces.concat (h : HidesBraces t)
    (hc : c ≠ '{' ∧ c ≠ '}' ∨ Quote.after none t ≠ none) : HidesBraces (t ++ [c]) :=
  ⟨h.1.concat (hc.imp_left And.left), h.2.concat (hc.imp_left And.right)⟩

/-- The front of a text shows no more braces than the text. -/
theorem HidesBraces.front (h : HidesBraces t) (hu : u <+: t) : HidesBraces u :=
  ⟨h.1.front (List.cons_ne_nil _ _) hu, h.2.front (List.cons_ne_nil _ _) hu⟩

/-- When the window is the mark, what comes before its last character ends the pending text. -/
theorem Backed.dropLast_suffix (h : Backed mark window pending) (hlength : 1 < mark.length)
    (hwindow : window.remember limit c = mark) : mark.dropLast <:+ pending := by
  have hne : mark ≠ [] := List.ne_nil_of_length_pos (by omega)
  obtain ⟨front, rfl, hfront⟩ :=
    eq_append_of_suffix_append hne (hwindow ▸ remember_suffix limit window c)
  rw [List.dropLast_concat]
  refine h front [c] (fun hnil => ?_) (List.cons_ne_nil c []) rfl hfront
  simp [hnil] at hlength

end Text

/-! ## One filter

  The state of either filter tells that the other one sleeps. -/

/-- A filter that is shown a character becomes active on request, or stays as it was. -/
theorem Comments.step_cases (f : Comments) (g : Glance) :
    (f.recent.remember 2 g.char = openMark ∧ f.active = false ∧ g.free = true ∧
      f.step g = (⟨true, []⟩, .opened ['/'])) ∨
    ((f.step g).1.active = f.active ∧ ∀ mark, (f.step g).2 ≠ .opened mark) := by
  by_cases hopen : f.recent.remember 2 g.char = openMark ∧ f.active = false ∧ g.free = true
  · exact .inl ⟨hopen.1, hopen.2.1, hopen.2.2, step_opened hopen.1 hopen.2.1 hopen.2.2⟩
  · right
    simp only [step, if_neg hopen]
    split
    · rename_i hclose
      exact ⟨hclose.2.symm, fun _ => by simp⟩
    · split <;> exact ⟨rfl, fun _ => by simp⟩

/-- A filter that is shown a character becomes active on request, or stays as it was; outside of literals it
may ask to be closed. -/
theorem Imports.step_cases (f : Imports) (g : Glance) :
    (f.recent.remember 7 g.char = keyword ∧ f.active = false ∧ g.free = true ∧
      f.step g = (⟨some keyword, [], f.records⟩, .opened keywordStart)) ∨
    ((f.step g).1.active = f.active ∧ (∀ mark, (f.step g).2 ≠ .opened mark) ∧
      ((f.step g).2.isEnding = true → g.quoted = false)) := by
  -- Opening comes first: keyword read, no statement open, not shielded. All else leaves the filter
  -- as active as it was.
  by_cases hopen : f.recent.remember 7 g.char = keyword ∧ f.active = false ∧ g.free = true
  · have hnone : f.statement = none := by simpa [active] using hopen.2.1
    exact .inl ⟨hopen.1, hopen.2.1, hopen.2.2, step_opened hnone hopen.1 hopen.2.2⟩
  right
  cases hf : f.statement with
  | none =>
    have hidle : f.recent.remember 7 g.char ≠ keyword ∨ g.free = false := by
      by_contra hboth
      rw [not_or, not_not, Bool.not_eq_false] at hboth
      exact hopen ⟨hboth.1, by simp [active, hf], hboth.2⟩
    rw [step_idle hf hidle]
    exact ⟨by simp [active, hf], by simp, by simp [Reaction.isEnding]⟩
  | some begun =>
    by_cases hbroken : g.char = '\n' ∨ f.recent.remember 7 g.char = keyword
    · obtain ⟨f', hstep, hactive⟩ := step_broken hf hbroken
      rw [hstep]
      exact ⟨hactive.trans (by simp [active, hf]), by simp, by simp [Reaction.isEnding]⟩
    obtain ⟨hn, hk⟩ := not_or.mp hbroken
    by_cases hend : g.char = ';' ∧ g.quoted = false
    · rw [step_ending hf hend.1 hend.2]
      exact ⟨by simp [active, hf], by simp, fun _ => hend.2⟩
    · rw [step_inside hf hk hn hend]
      exact ⟨by simp [active, hf], by simp, by simp [Reaction.isEnding]⟩

/-- A mark that ends the pending text is taken off it. -/
theorem Cursor.pending_dropMark {k : Cursor} {mark : Text} (h : mark <:+ k.pending) :
    k.pending = (k.dropMark mark).pending ++ mark := by
  obtain ⟨kept, hkept⟩ := h
  rw [dropMark, ← hkept, Text.dropSuffix_append]

/-- A filter is free where no literal is open and the other filter is not active. -/
theorem Cursor.free_glance {k : Cursor} {c : Char} {others : Bool} (h : (k.glance c others).free = true) :
    k.quote = none ∧ others = false := by
  simpa [glance, quoted] using h

namespace Scan.State

open Lookahead

variable {text u mark : Text} {s s' : State} {p : Position} {c : Char} {stage : Stage}

/-- At most one filter is active, and no literal is open in a comment. -/
structure Exclusive (s : State) : Prop where
  one : ¬ (s.comments.active = true ∧ s.imports.active = true)
  unquoted : s.comments.active = true → s.cursor.quote = none

theorem exclusive_start : Exclusive {} := ⟨by decide, fun _ => rfl⟩

/-- Every step keeps the filters exclusive. -/
theorem kept_exclusive : Kept Exclusive where
  look {s} c h := by
    refine ⟨h.one, fun hactive => ?_⟩
    have hcursor : (s.look c).cursor = s.cursor.countLine c := if_pos hactive
    rw [hcursor]
    exact h.unquoted hactive
  pollComments {s s' c ends} hpoll h := by
    obtain ⟨cursor, hheed, -, rfl⟩ := pollComments_eq_ok hpoll
    obtain ⟨pending, rfl, -⟩ := Cursor.heed_eq_ok hheed
    rcases Comments.step_cases s.comments (s.cursor.glance c s.imports.active) with
      ⟨-, -, hfree, -⟩ | ⟨hsame, -⟩
    · obtain ⟨hquote, himports⟩ := Cursor.free_glance hfree
      exact ⟨fun hboth => Bool.false_ne_true (himports.symm.trans hboth.2), fun _ => hquote⟩
    · exact ⟨fun hboth => h.one ⟨hsame ▸ hboth.1, hboth.2⟩,
        fun hactive => h.unquoted (hsame ▸ hactive)⟩
  pollImports {s s' c ends} hpoll h := by
    obtain ⟨cursor, hheed, -, rfl⟩ := pollImports_eq_ok hpoll
    obtain ⟨pending, rfl, -⟩ := Cursor.heed_eq_ok hheed
    rcases Imports.step_cases s.imports (s.cursor.glance c s.comments.active) with
      ⟨-, -, hfree, -⟩ | ⟨hsame, -⟩
    · obtain ⟨-, hcomments⟩ := Cursor.free_glance hfree
      exact ⟨fun hboth => Bool.false_ne_true (hcomments.symm.trans hboth.1), h.unquoted⟩
    · exact ⟨fun hboth => h.one ⟨hboth.1, hsame ▸ hboth.2⟩, h.unquoted⟩
  handle hhandle h := by
    cases handled_of_handle hhandle with
    | swallowed _ => exact h
    | pushed _ _ => exact ⟨h.one, h.unquoted⟩
    | opened _ _ => exact ⟨h.one, h.unquoted⟩
    | closed _ => exact ⟨h.one, h.unquoted⟩
  settle {s} commentEnds importEnds h := by
    -- closing makes no filter active
    have hcomments : (s.settle commentEnds importEnds).comments.active = true →
        s.comments.active = true := by
      cases commentEnds with
      | true => exact fun hactive => absurd hactive Bool.false_ne_true
      | false => exact id
    have himports : (s.settle commentEnds importEnds).imports.active = true →
        s.imports.active = true := by
      cases importEnds with
      | true => exact fun hactive => absurd hactive Bool.false_ne_true
      | false => exact id
    exact ⟨fun hboth => h.one ⟨hcomments hboth.1, himports hboth.2⟩,
      fun hactive => h.unquoted (hcomments hactive)⟩

/-! ## Requests

  A request is granted by taking the mark off; that it is there to be taken off is shown by being
  backed. -/

/-- A mark that ends the pending text is taken off it when a filter asks for that. -/
theorem poll_of_opened {F : Type} {k : Cursor} {step : Glance → F × Reaction} {others : Bool}
    (hr : (step (k.glance c others)).2 = .opened mark) (hm : mark <:+ k.pending) :
    ∃ filter cursor, k.poll step c others = .ok (filter, cursor, false) ∧
      k.pending = cursor.pending ++ mark := by
  have hpoll := Cursor.poll_eq_ok_iff.mpr ⟨.opened mark, Prod.ext rfl hr, rfl, rfl⟩
  exact ⟨_, _, hpoll, Cursor.pending_dropMark hm⟩

/-- So is a mark that the comment filter asks for. -/
theorem pollComments_of_opened (hr : s.commentReaction c = .opened mark)
    (hm : mark <:+ s.cursor.pending) : ∃ s', s.pollComments c = .ok (s', false) ∧
      s.cursor.pending = s'.cursor.pending ++ mark := by
  obtain ⟨_, _, hpoll, hpending⟩ := poll_of_opened hr hm
  exact ⟨_, bind_eq_ok.mpr ⟨_, hpoll, rfl⟩, hpending⟩

/-- So is a mark that the import filter asks for. -/
theorem pollImports_of_opened (hr : s.importReaction c = .opened mark)
    (hm : mark <:+ s.cursor.pending) : ∃ s', s.pollImports c = .ok (s', false) ∧
      s.cursor.pending = s'.cursor.pending ++ mark := by
  obtain ⟨_, _, hpoll, hpending⟩ := poll_of_opened hr hm
  exact ⟨_, bind_eq_ok.mpr ⟨_, hpoll, rfl⟩, hpending⟩

/-- A reached state is outside if no filter is active there and a character that is no quote is looked at
outside of literals. -/
theorem Reached.eq_outside_of_look (h : Reached p s) (hc : isQuote c = false)
    (hcomments : s.comments.active = false) (himports : s.imports.active = false)
    (hquote : (s.look c).cursor.quote = none) : ∃ o : Outlook, s = State.outside o ∧ o.Backed := by
  cases h with
  | outside _ _ hbacked _ => exact ⟨_, rfl, hbacked⟩
  | @inLiteral q o hq _ _ _ =>
    have hne : c ≠ q := by
      rintro rfl
      exact Bool.false_ne_true (hc.symm.trans hq)
    rw [look_inLiteral] at hquote
    exact absurd hquote (by simp [Outlook.cursorOn, Quote.next, hne])
  | inComment _ _ => exact absurd hcomments (by simp [State.inComment])
  | inStatement _ _ _ => exact absurd himports (by simp [State.inStatement, Imports.active])

/-- The opening mark of a comment is pending but for its last character. -/
theorem pending_of_commentReaction (h : Reached p s) (hr : (s.look c).commentReaction c = .opened mark) :
    mark <:+ (s.look c).cursor.pending := by
  rcases Comments.step_cases (s.look c).comments
      ((s.look c).cursor.glance c (s.look c).imports.active) with
    ⟨hwindow, hidle, hfree, hstep⟩ | ⟨-, hnot⟩
  · obtain ⟨hquote, himports⟩ := Cursor.free_glance hfree
    obtain rfl : '*' = c := Option.some.inj (Text.getLast?_of_remember (by decide) hwindow)
    obtain ⟨o, rfl, hbacked⟩ := h.eq_outside_of_look (by decide) hidle himports hquote
    obtain rfl : ['/'] = mark := by
      rw [commentReaction, hstep] at hr
      exact Reaction.opened.inj hr
    rw [look_outside]
    exact hbacked.openMark.dropLast_suffix (by decide) hwindow
  · exact absurd hr (hnot mark)

/-- The keyword of a statement is pending but for its last character. -/
theorem pending_of_importReaction {ends : Bool} (h : Reached p s)
    (hpoll : (s.look c).pollComments c = .ok (s', ends)) (hr : s'.importReaction c = .opened mark) :
    mark <:+ s'.cursor.pending := by
  rcases Imports.step_cases s'.imports (s'.cursor.glance c s'.comments.active) with
    ⟨hwindow, hidle, hfree, hstep⟩ | ⟨-, hnot, -⟩
  · obtain ⟨hquote, hcomments⟩ := Cursor.free_glance hfree
    obtain rfl : 't' = c := Option.some.inj (Text.getLast?_of_remember (by decide) hwindow)
    -- the keyword ends with the last character of neither mark, so the comment filter changed nothing
    have hquiet := Comments.step_quiet (f := (s.look 't').comments)
      (g := (s.look 't').cursor.glance 't' (s.look 't').imports.active)
      (Text.remember_ne_of_getLast? (by decide) (show Comments.openMark.getLast? ≠ some 't' by decide))
      (Text.remember_ne_of_getLast? (by decide) (show Comments.closeMark.getLast? ≠ some 't' by decide))
    obtain ⟨cursor, hheed, -, rfl⟩ := pollComments_eq_ok hpoll
    obtain rfl : (s.look 't').cursor = cursor := by
      rw [commentReaction, hquiet] at hheed
      exact Except.ok.inj hheed
    rw [hquiet] at hcomments
    obtain ⟨o, rfl, hbacked⟩ := h.eq_outside_of_look (by decide) hcomments hidle hquote
    obtain rfl : Imports.keywordStart = mark := by
      rw [importReaction, hstep] at hr
      exact Reaction.opened.inj hr
    rw [look_outside]
    exact hbacked.keyword.dropLast_suffix (by decide) hwindow
  · exact absurd hr (hnot mark)

/-! ## Replay

  The pending text is not a part of the source: comments and statements are missing from it.  Reading it
  again from its front tells which literal is open nevertheless. -/

/-- Reading the pending text again leads to the literal that is open, or to none while a statement is
captured, and shows no brace. -/
structure Steady (s : State) : Prop where
  replay : Quote.after none s.cursor.pending = if s.imports.active then none else s.cursor.quote
  hidden : s.cursor.pending.HidesBraces

theorem steady_start : Steady {} := ⟨rfl, Text.hidesBraces_nil⟩

/-- One character more moves the quote on. -/
theorem after_concat {t : Text} {q : Quote} (h : Quote.after none t = q) (c : Char) :
    Quote.after none (t ++ [c]) = q.next c := by
  rw [Quote.after_append, h]
  rfl

/-- Every move keeps the pending text in step. -/
theorem Steady.move (h : Steady s) (hmove : Move s c (.ok s')) : Steady s' := by
  obtain ⟨hreplay, hhidden⟩ := h
  -- By what the character did: replaying the pending text must end in the quote the scan is in, and
  -- no brace may be visible in it.
  cases hmove with
  | @openComment o _ =>
    have hbalanced : o.pending.Balanced := hreplay
    exact ⟨hbalanced.dropSuffix (by decide), hhidden.front (Text.dropSuffix_prefix _ _)⟩
  | @openStatement o _ =>
    have hbalanced : o.pending.Balanced := hreplay
    exact ⟨hbalanced.dropSuffix (by decide), hhidden.front (Text.dropSuffix_prefix _ _)⟩
  | @openLiteral o c hq =>
    have hne : c ≠ '{' ∧ c ≠ '}' := by
      constructor <;> (rintro rfl; exact absurd hq (by decide))
    exact ⟨(after_concat hreplay c).trans (if_pos hq), hhidden.concat (.inl hne)⟩
  | brace _ _ _ _ => exact ⟨rfl, Text.hidesBraces_nil⟩
  | @plain o c hopen hclose hq =>
    exact ⟨(after_concat hreplay c).trans (Quote.next_none hq),
      hhidden.concat (.inl ⟨hopen, hclose⟩)⟩
  | @literal q o c hc =>
    have hopen : Quote.after none o.pending = some q := hreplay
    exact ⟨(after_concat hopen c).trans (if_neg hc),
      hhidden.concat (.inr (hopen.trans_ne (Option.some_ne_none q)))⟩
  | @closeLiteral _ o =>
    have hopen : Quote.after none o.pending = some c := hreplay
    exact ⟨(after_concat hopen c).trans (if_pos rfl),
      hhidden.concat (.inr (hopen.trans_ne (Option.some_ne_none c)))⟩
  | comment => exact ⟨hreplay, hhidden⟩
  | closeComment => exact ⟨rfl, Text.hidesBraces_nil⟩
  | statement _ => exact ⟨hreplay, hhidden⟩
  | closeStatement _ => exact ⟨hreplay, hhidden⟩

/-- Whatever was read, the state is steady. -/
theorem steady_of_run (h : run text {} u = .ok s) : Steady s :=
  run_ind (motive := fun _ s => Steady s) steady_start (fun _ hmove h => h.move hmove) h

/-- Handling a character changes the literal that is open no more. -/
theorem quote_of_handle (h : s.handle c = .ok s') : s'.cursor.quote = s.cursor.quote := by
  cases handled_of_handle h <;> rfl

/-- Behind a character that was handled the scan comes to rest; a statement ends outside of literals. -/
theorem Passes.settle (h : Passes text (.handled c) s) : ∃ commentEnds importEnds,
    Passes text .rest (s.settle commentEnds importEnds) ∧
      (importEnds = true → s.cursor.quote = none) := by
  -- The stages of the character are undone one by one, back to where it was read.
  cases h with
  | @handle _ worded _ hworded hhandle =>
  cases hworded with
  | @pollImports _ marked _ importEnds hmarked himports =>
  cases hmarked with
  | @pollComments _ looked _ commentEnds hlooked hcomments =>
  cases hlooked with
  | @look u _ before hu hrun =>
    have hread : before.read c = .ok (s.settle commentEnds importEnds) := by
      refine bind_eq_ok.mpr ⟨_, hcomments, bind_eq_ok.mpr ⟨_, himports, ?_⟩⟩
      exact bind_eq_ok.mpr ⟨_, hhandle, rfl⟩
    refine ⟨commentEnds, importEnds, .rest hu ?_, fun hends => ?_⟩
    · rw [run_append [c] hrun, run_cons_of_ok hread]
      rfl
    · obtain ⟨cursor, hheed, rfl, rfl⟩ := pollImports_eq_ok himports
      obtain ⟨pending, rfl, -⟩ := Cursor.heed_eq_ok hheed
      rw [quote_of_handle hhandle]
      rcases Imports.step_cases marked.imports (marked.cursor.glance c marked.comments.active) with
        ⟨-, -, -, hstep⟩ | ⟨-, -, hquoted⟩
      · rw [importReaction, hstep] at hends
        exact absurd hends Bool.false_ne_true
      · simpa [Cursor.glance, Cursor.quoted] using hquoted hends

/-! ## Every scan

  The states within a character are reached from those between characters, one step at a time. -/

/-- Whether nothing is left to be done with the character at hand. -/
def Stage.Done : Stage → Prop
  | rest | handled _ => True
  | looked _ | marked _ | worded _ => False

/-- Looking at a character leaves the pending text. -/
theorem pending_look (s : State) (c : Char) : (s.look c).cursor.pending = s.cursor.pending := by
  unfold look
  split <;> rfl

/-- At every stage the pending text hides all braces. -/
theorem Passes.hidesBraces (h : Passes text stage s) : s.cursor.pending.HidesBraces := by
  have hpolled : ∀ {k k' : Cursor} {r : Reaction}, k.heed r = .ok k' → k'.pending <+: k.pending := by
    intro k k' r hheed
    obtain ⟨pending, rfl, rfl | ⟨mark, -, rfl⟩ | rfl⟩ := Cursor.heed_eq_ok hheed
    · exact List.prefix_refl _
    · exact Text.dropSuffix_prefix _ mark
    · exact List.nil_prefix
  induction h with
  | rest _ hrun => exact (steady_of_run hrun).hidden
  | @look u c s _ hrun =>
    rw [pending_look]
    exact (steady_of_run hrun).hidden
  | pollComments _ hpoll ih =>
    obtain ⟨cursor, hheed, -, rfl⟩ := pollComments_eq_ok hpoll
    exact ih.front (hpolled hheed)
  | pollImports _ hpoll ih =>
    obtain ⟨cursor, hheed, -, rfl⟩ := pollImports_eq_ok hpoll
    exact ih.front (hpolled hheed)
  | handle hworded hhandle _ =>
    -- the scan comes to rest with the same text pending
    obtain ⟨commentEnds, importEnds, hrest, -⟩ := (Passes.handle hworded hhandle).settle
    cases hrest with
    | rest _ hrun => exact (steady_of_run hrun).hidden

/-- Where a character is done with, reading the pending text again leads to the literal that is open. -/
theorem Passes.replay (h : Passes text stage s) (hdone : stage.Done) :
    Quote.after none s.cursor.pending = if s.imports.active then none else s.cursor.quote := by
  cases stage with
  | looked c => exact hdone.elim
  | marked c => exact hdone.elim
  | worded c => exact hdone.elim
  | rest =>
    cases h with
    | rest _ hrun => exact (steady_of_run hrun).replay
  | handled c =>
    obtain ⟨commentEnds, importEnds, hrest, hends⟩ := h.settle
    cases hrest with
    | rest _ hrun =>
      have hreplay := (steady_of_run hrun).replay
      cases importEnds with
      | false => exact hreplay
      | true =>
        -- the statement is not closed yet
        have hquote : s.cursor.quote = none := hends rfl
        have hclosed : Quote.after none s.cursor.pending = s.cursor.quote := hreplay
        rw [hclosed, hquote, ite_self]

/-- Filters, literals and pending text stay in step.  At every stage of every scan at most one filter is
active, no literal is open in a comment, and the pending text hides all braces; when a filter asks for a
mark to be taken off, the pending text ends with it and it is taken off; and where a character is done
with, reading the pending text again leads to the literal that is open, or to none while a statement is
captured. -/
theorem filters_in_step (text : Text) :
    (∀ stage s, Passes text stage s →
      ¬ (s.comments.active = true ∧ s.imports.active = true) ∧
      (s.comments.active = true → s.cursor.quote = none) ∧
      Text.Hides ['{'] s.cursor.pending ∧ Text.Hides ['}'] s.cursor.pending) ∧
    (∀ c s mark, Passes text (.looked c) s → s.commentReaction c = .opened mark →
      ∃ s', s.pollComments c = .ok (s', false) ∧ s.cursor.pending = s'.cursor.pending ++ mark) ∧
    (∀ c s mark, Passes text (.marked c) s → s.importReaction c = .opened mark →
      ∃ s', s.pollImports c = .ok (s', false) ∧ s.cursor.pending = s'.cursor.pending ++ mark) ∧
    ∀ stage s, Passes text stage s → stage.Done →
      Quote.after none s.cursor.pending = if s.imports.active then none else s.cursor.quote := by
  refine ⟨fun stage s h => ?_, fun c s mark h hr => ?_, fun c s mark h hr => ?_, fun stage s h =>
    h.replay⟩
  · have hexclusive : s.Exclusive := kept_exclusive.passes exclusive_start h
    exact ⟨hexclusive.one, hexclusive.unquoted, h.hidesBraces⟩
  · cases h with
    | look _ hrun =>
      exact pollComments_of_opened hr (pending_of_commentReaction (reached_start.run hrun) hr)
  · cases h with
    | pollComments hlooked hpoll =>
      cases hlooked with
      | look _ hrun =>
        exact pollImports_of_opened hr (pending_of_importReaction (reached_start.run hrun) hpoll hr)

/-- A brace in a literal, a comment and an import statement. -/
def braceInLiteral : Text := "a'\x7b'/**/@import 'c';".toList

/-- The scan before the opening mark of the comment is complete. -/
def stateInMark : State where
  cursor := ⟨5, 1, none, "a'\x7b'/".toList⟩
  comments := ⟨false, "'/".toList⟩
  imports := ⟨none, "a'\x7b'/".toList, []⟩
  blocks := {}

/-- The scan before the keyword is complete. -/
def stateInKeyword : State where
  cursor := ⟨14, 1, none, "@impor".toList⟩
  comments := ⟨false, "or".toList⟩
  imports := ⟨none, "/@impor".toList, []⟩
  blocks := {}

/-- The comment that opens and the keyword that is complete: in both the mark ends the pending text. -/
theorem filters_in_step_braceInLiteral :
    (∃ s', (stateInMark.look '*').pollComments '*' = .ok (s', false) ∧
      stateInMark.cursor.pending = s'.cursor.pending ++ ['/']) ∧
    (∃ s s', (stateInKeyword.look 't').pollComments 't' = .ok (s, false) ∧
      s.pollImports 't' = .ok (s', false) ∧
      s.cursor.pending = s'.cursor.pending ++ Imports.keywordStart) ∧
    Text.Hides ['{'] stateInMark.cursor.pending ∧
    Quote.after none stateInMark.cursor.pending = none := by
  -- The states are those of two fronts of the text, one character before a mark is complete.
  have hfront : ∀ n, braceInLiteral.take n <+: braceInLiteral := fun n => List.take_prefix n _
  have hmark : run braceInLiteral {} (braceInLiteral.take 5) = .ok stateInMark := by decide +kernel
  have hkey : run braceInLiteral {} (braceInLiteral.take 14) = .ok stateInKeyword := by decide +kernel
  obtain ⟨s, hpoll, hrequest⟩ : ∃ s, (stateInKeyword.look 't').pollComments 't' = .ok (s, false) ∧
      s.importReaction 't' = .opened Imports.keywordStart := ⟨_, rfl, rfl⟩
  obtain ⟨hstages, hcomments, himports, hreplay⟩ := filters_in_step braceInLiteral
  obtain ⟨-, -, hhides, -⟩ := hstages .rest stateInMark (.rest (hfront 5) hmark)
  refine ⟨hcomments '*' _ ['/'] (.look (hfront 6) hmark) rfl, ?_, hhides,
    hreplay .rest stateInMark (.rest (hfront 5) hmark) trivial⟩
  obtain ⟨s', hpoll', hpending⟩ :=
    himports 't' s _ (.pollComments (.look (hfront 15) hkey) hpoll) hrequest
  exact ⟨s, s', hpoll, hpoll', hpending⟩

end Scan.State

end StyleFold
