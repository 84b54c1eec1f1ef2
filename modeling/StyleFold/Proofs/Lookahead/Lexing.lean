/-
  Lexing — which lexeme a text begins with, and induction over the lexemes of a text.

  The definition of the first lexeme is one nested test.  Proofs about texts want ten cases, each with
  what is known then, and the text that is left; this module opens the tests once.

  1. **Marks ahead** — outside of a mark one character decides.
  2. **The ten beginnings** — a comment, an import statement or a literal, each closed or not, the end
     of a comment out of place, a broken statement, a brace, and any other character.
  3. **Induction** — what holds of the empty text and goes from the text behind a lexeme to the text
     holds of every text (`Lexeme.all_ind`).
-/
import StyleFold.Proofs.Lookahead.Reader

namespace StyleFold.Lookahead

variable {t body rest : Text} {c : Char}

/-! ## Marks ahead

  Three marks are looked for, and none of them begins with a quote or a brace. -/

/-- A mark stands at the front of the text. -/
def MarkAhead (t : Text) : Prop :=
  Comments.openMark <+: t ∨ Comments.closeMark <+: t ∨ Imports.keyword <+: t

namespace Lexeme

/-- The character is the whole first lexeme, or opens it, unless a mark stands here. -/
theorem first_of_not_markAhead (h : ¬ MarkAhead (c :: t)) : first c t =
    if isQuote c then
      match through? [c] t with
      | some (body, rest) => (literal (c :: body), rest)
      | none => (unclosed (c :: t), [])
    else if c = '{' then (brace true, t)
    else if c = '}' then (brace false, t)
    else (plain c, t) := by
  have hopen : Comments.openMark.isPrefixOf (c :: t) = false := Bool.eq_false_iff.mpr fun hp =>
    h (.inl (List.isPrefixOf_iff_prefix.mp hp))
  have hclose : Comments.closeMark.isPrefixOf (c :: t) = false := Bool.eq_false_iff.mpr fun hp =>
    h (.inr (.inl (List.isPrefixOf_iff_prefix.mp hp)))
  have hkey : Imports.keyword.isPrefixOf (c :: t) = false := Bool.eq_false_iff.mpr fun hp =>
    h (.inr (.inr (List.isPrefixOf_iff_prefix.mp hp)))
  simp only [first, hopen, hclose, hkey]
  rfl

/-! ## The ten beginnings

  One equation for each, from what is ahead to the lexemes of the text. -/

/-- A comment goes to the end mark. -/
theorem all_comment (h : through? Comments.closeMark t = some (body, rest)) :
    all (Comments.openMark ++ t) = comment (Comments.openMark ++ body) :: all rest := by
  show all ('/' :: '*' :: t) = _
  rw [all_cons]
  simp [first, Comments.openMark, h]

/-- A comment without an end mark takes up the text. -/
theorem all_openComment (h : through? Comments.closeMark t = none) :
    all (Comments.openMark ++ t) = [unclosed (Comments.openMark ++ t)] := by
  show all ('/' :: '*' :: t) = _
  rw [all_cons]
  simp [first, Comments.openMark, h]

/-- An end mark where no comment is open is out of place. -/
theorem all_closeMark (t : Text) :
    all (Comments.closeMark ++ t) = [faulty ['*'] '/' .unmatchedCommentClose] := by
  show all ('*' :: '/' :: t) = _
  rw [all_cons]
  simp [first, Comments.openMark, Comments.closeMark]

/-- A statement goes to the semicolon that closes it. -/
theorem all_statement (h : StatementEnd.of none t = .closed body rest) :
    all (Imports.keyword ++ t) = statement (Imports.keyword ++ body) :: all rest := by
  show all ('@' :: 'i' :: 'm' :: 'p' :: 'o' :: 'r' :: 't' :: t) = _
  rw [all_cons]
  simp [first, Comments.openMark, Comments.closeMark, Imports.keyword, h]

/-- A statement breaks at a character that must not stand in it. -/
theorem all_brokenStatement {before : Text} {d : Char}
    (h : StatementEnd.of none t = .broken before d) :
    all (Imports.keyword ++ t) = [faulty (Imports.keyword ++ before) d .missingSemicolon] := by
  show all ('@' :: 'i' :: 'm' :: 'p' :: 'o' :: 'r' :: 't' :: t) = _
  rw [all_cons]
  simp [first, Comments.openMark, Comments.closeMark, Imports.keyword, h]

/-- A statement without a semicolon takes up the text. -/
theorem all_openStatement (h : StatementEnd.of none t = .unfinished) :
    all (Imports.keyword ++ t) = [openStatement (Imports.keyword ++ t)] := by
  show all ('@' :: 'i' :: 'm' :: 'p' :: 'o' :: 'r' :: 't' :: t) = _
  rw [all_cons]
  simp [first, Comments.openMark, Comments.closeMark, Imports.keyword, h]

/-- A literal goes to the next quote of its kind. -/
theorem all_literal (hm : ¬ MarkAhead (c :: t)) (hq : isQuote c = true)
    (h : through? [c] t = some (body, rest)) : all (c :: t) = literal (c :: body) :: all rest := by
  rw [all_cons, first_of_not_markAhead hm, if_pos hq, h]

/-- A literal without that quote takes up the text. -/
theorem all_openLiteral (hm : ¬ MarkAhead (c :: t)) (hq : isQuote c = true)
    (h : through? [c] t = none) : all (c :: t) = [unclosed (c :: t)] := by
  rw [all_cons, first_of_not_markAhead hm, if_pos hq, h, all_nil]

/-- A brace is a lexeme by itself. -/
theorem all_brace (opens : Bool) (t : Text) :
    all ((if opens then '{' else '}') :: t) = brace opens :: all t := by
  rw [all_cons]
  cases opens <;> rfl

/-- So is any character that begins none of the others. -/
theorem all_plain (hm : ¬ MarkAhead (c :: t)) (hq : isQuote c = false) (hopen : c ≠ '{')
    (hclose : c ≠ '}') : all (c :: t) = plain c :: all t := by
  rw [all_cons, first_of_not_markAhead hm, hq, if_neg hopen, if_neg hclose]
  rfl

/-! ## Induction

  Recursion over a text by lexemes, where the text behind a lexeme is shorter but not one character
  shorter. -/

/-- Induction over the lexemes of a text. -/
theorem all_ind {motive : Text → Prop} (nil : motive [])
    (comment : ∀ {t body rest}, through? Comments.closeMark t = some (body, rest) →
      motive rest → motive (Comments.openMark ++ t))
    (openComment : ∀ {t}, through? Comments.closeMark t = none → motive (Comments.openMark ++ t))
    (closeMark : ∀ t, motive (Comments.closeMark ++ t))
    (statement : ∀ {t body rest}, StatementEnd.of none t = .closed body rest →
      motive rest → motive (Imports.keyword ++ t))
    (brokenStatement : ∀ {t before d}, StatementEnd.of none t = .broken before d →
      motive (Imports.keyword ++ t))
    (openStatement : ∀ {t}, StatementEnd.of none t = .unfinished → motive (Imports.keyword ++ t))
    (literal : ∀ {c t body rest}, ¬ MarkAhead (c :: t) → isQuote c = true →
      through? [c] t = some (body, rest) → motive rest → motive (c :: t))
    (openLiteral : ∀ {c t}, ¬ MarkAhead (c :: t) → isQuote c = true → through? [c] t = none →
      motive (c :: t))
    (brace : ∀ (opens : Bool) (t : Text), motive t → motive ((if opens then '{' else '}') :: t))
    (plain : ∀ {c t}, ¬ MarkAhead (c :: t) → isQuote c = false → c ≠ '{' → c ≠ '}' →
      motive t → motive (c :: t)) (t : Text) : motive t :=
  -- what stands behind a lexeme is shorter than the text
  have ih (u : Text) (h : u.length < t.length) : motive u :=
    all_ind nil comment openComment closeMark statement brokenStatement openStatement literal
      openLiteral brace plain u
  match ht : t with
  | [] => nil
  | c :: u => by
    by_cases hm : MarkAhead (c :: u)
    · rcases hm with ⟨v, hv⟩ | ⟨v, hv⟩ | ⟨v, hv⟩
      · cases hcut : through? Comments.closeMark v with
        | none => exact hv ▸ openComment hcut
        | some cut =>
          refine hv ▸ comment hcut (ih cut.2 ?_)
          rw [← hv, ← through?_append hcut]
          simp only [Comments.openMark, List.length_append, List.length_cons]
          omega
      · exact hv ▸ closeMark v
      · cases hend : StatementEnd.of none v with
        | closed body rest =>
          refine hv ▸ statement hend (ih rest ?_)
          rw [← hv, ← StatementEnd.append_of_closed hend]
          simp only [Imports.keyword, List.length_append, List.length_cons]
          omega
        | broken before d => exact hv ▸ brokenStatement hend
        | unfinished => exact hv ▸ openStatement hend
    · have hlt : u.length < (c :: u).length := Nat.lt_succ_self u.length
      by_cases hq : isQuote c = true
      · cases hcut : through? [c] u with
        | none => exact openLiteral hm hq hcut
        | some cut =>
          refine literal hm hq hcut (ih cut.2 ?_)
          rw [← through?_append hcut]
          simp only [List.length_append, List.length_cons]
          omega
      · by_cases hopen : c = '{'
        · exact hopen ▸ brace true u (ih u hlt)
        · by_cases hclose : c = '}'
          · exact hclose ▸ brace false u (ih u hlt)
          · exact plain hm (Bool.eq_false_iff.mpr hq) hopen hclose (ih u hlt)
termination_by t.length

end Lexeme

end StyleFold.Lookahead
