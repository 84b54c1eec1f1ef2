/-
  Repeats — what is left to merge in a compressed sheet.

  Merging by content can give two rules of one block the same selectors: it runs behind the pass that
  would fold them together.  Nothing else is left to merge.

  Two rules have equal selectors after a compile if the second pass gave one of them selectors that the
  other had already.  The first pass would have folded them, but it does not run again.

  1. **Repeated selectors** — siblings among which no two rules have the same selectors.
  2. **Compressed siblings** — blocks keep their different headers, so merging by header finds something to
     merge exactly if selectors are repeated (`distinct_compress_iff`), at any level
     (`atAllLevels_distinct_iff`).
  3. **Compressing again** — compressed siblings stay as they are if no selectors are repeated
     (`compress_of_selectorsDistinct`), and lose nodes if some are (`selectorsDistinct_of_population`).
-/
import StyleFold.Proofs.Merge.Progress
import StyleFold.Proofs.Merge.SourceOrder

namespace StyleFold

open Node

variable {siblings : List Node}

/-! ## Repeated selectors

  The property is one of sibling lists, to be asked for at every level. -/

/-- Whether no two rules among the siblings have the same selectors. -/
def Node.SelectorsDistinct (siblings : List Node) : Prop :=
  ((siblings.filter fun n => n.kind == .rule).map selectors).Nodup

instance : DecidablePred Node.SelectorsDistinct := fun siblings =>
  inferInstanceAs (Decidable ((siblings.filter fun n => n.kind == .rule).map selectors).Nodup)

/-- Selectors are distinct if those of any two rules are. -/
theorem Node.selectorsDistinct_iff : SelectorsDistinct siblings ↔ siblings.Pairwise fun a b =>
    a.kind = .rule → b.kind = .rule → a.selectors ≠ b.selectors := by
  rw [SelectorsDistinct, List.Nodup, List.pairwise_map, List.pairwise_filter]
  simp only [beq_iff_eq]

/-- Siblings are distinct if the keys of any two of them are, imports apart. -/
theorem SameHeader.distinct_iff : Distinct siblings ↔ siblings.Pairwise fun a b =>
    a.isImport = false → b.isImport = false → a.headerKey ≠ b.headerKey := by
  rw [Distinct, List.Nodup, List.pairwise_map, List.pairwise_filter]
  simp only [Bool.not_eq_eq_eq_not, Bool.not_true]

/-! ## Compressed siblings

  Of all that merging by header looks for, only rules can be left to find. -/

namespace SameContent

/-- Merging by content leaves blocks their different headers. -/
theorem distinct_blocks_pass (h : SameHeader.Distinct siblings) :
    (pass siblings).children.Pairwise fun a b => a.isImport = false ∧ a.kind ≠ .rule →
      b.isImport = false ∧ b.kind ≠ .rule → a.headerKey ≠ b.headerKey := by
  rw [SameHeader.distinct_iff, ← Sibling.map_fst_all siblings, List.pairwise_map] at h
  refine ((pass_children_perm siblings).pairwise_iff ?_).mpr (List.pairwise_append.mpr ⟨?_, ?_, ?_⟩)
  · exact fun hab hb ha he => hab ha hb he.symm
  · rw [List.pairwise_filterMap]
    refine h.imp fun {a b} hab m hm n hn hm' hn' => ?_
    obtain ⟨-, hkm, -⟩ := keep_spec hm
    obtain ⟨-, hkn, -⟩ := keep_spec hn
    rw [hkm, hkn]
    exact hab (isImport_of_headerKey hkm ▸ hm'.1) (isImport_of_headerKey hkn ▸ hn'.1)
  -- what classes of rules become are rules
  · refine List.pairwise_of_forall_mem_list fun a ha b _ ha' => ?_
    obtain ⟨g, -, rfl⟩ := List.mem_map.mp ha
    exact absurd rfl ha'.2
  · intro a _ b hb _ hb'
    obtain ⟨g, -, rfl⟩ := List.mem_map.mp hb
    exact absurd rfl hb'.2

end SameContent

/-- What holds of all words of the siblings holds of those that are left of them. -/
theorem within_compress {P : Word → Prop} (hregular : ∀ n ∈ siblings, n.Within Word.Regular)
    (h : ∀ n ∈ siblings, n.Within P) : ∀ n ∈ (compress siblings).children, n.Within P :=
  SameContent.within_pass (SameHeader.within_pass (fun n hn => (hregular n hn).selective) h)

/-- Among compressed siblings there are headers to merge exactly if there are repeated selectors. -/
theorem distinct_compress_iff (hregular : ∀ n ∈ siblings, n.Within Word.Regular) :
    SameHeader.Distinct (compress siblings).children ↔ SelectorsDistinct (compress siblings).children := by
  have hwithin := within_compress hregular hregular
  have hsorted : ∀ n ∈ (compress siblings).children, Text.sort n.selectors = n.selectors :=
    fun n hn => (SameContent.texts_of_mem_pass hn).1
  rw [SameHeader.distinct_iff, selectorsDistinct_iff]
  constructor
  · refine fun h => h.imp_of_mem fun {a b} ha hb hab hrule hrule' he => hab ?_ ?_ ?_
    · rw [isImport_eq, hrule]; rfl
    · rw [isImport_eq, hrule']; rfl
    · rw [headerKey_of_rule hrule, headerKey_of_rule hrule', he]
  · intro h
    refine (h.and (SameContent.distinct_blocks_pass (SameHeader.distinct_pass siblings))).imp_of_mem ?_
    intro a b ha hb hab hother hother' hkey
    have hkind : a.kind = b.kind := by rw [← fst_headerKey, hkey, fst_headerKey]
    -- Blocks have distinct headers after the first pass already, so only rules are in question.
    by_cases hrule : a.kind = .rule
    · refine hab.1 hrule (hkind ▸ hrule) ?_
      have := sort_selectors_of_headerKey (hwithin b hb) (hwithin a ha) hkey
      rwa [hsorted a ha, hsorted b hb] at this
    · exact hab.2 ⟨hother, hrule⟩ ⟨hother', hkind ▸ hrule⟩ hkey

/-- The same holds at all levels. -/
theorem atAllLevels_distinct_iff (siblings : List Node) : (∀ n ∈ siblings, n.Within Word.Regular) →
    (AtAllLevels SameHeader.Distinct (compress siblings).children ↔
      AtAllLevels SelectorsDistinct (compress siblings).children) := by
  induction siblings using SameHeader.union_ind with
  | step siblings ih =>
    intro hregular
    rw [atAllLevels_iff, atAllLevels_iff, distinct_compress_iff hregular]
    refine and_congr_right fun _ => forall₂_congr fun n hn => ?_
    rcases children_of_mem_compress hn with hnil | ⟨g, hg, hunion⟩
    · rw [hnil]
      exact iff_of_true (atAllLevels_nil List.nodup_nil) (atAllLevels_nil List.nodup_nil)
    · rw [hunion]
      exact ih g hg (SameHeader.within_union hregular hg)

/-! ## Compressing again

  Both directions, so that the property tells exactly when a second compile has something to do. -/

/-- Compressed siblings without repeated selectors stay as they are. -/
theorem compress_of_selectorsDistinct (hregular : ∀ n ∈ siblings, n.Within Word.Regular)
    (h : AtAllLevels SelectorsDistinct (compress siblings).children) :
    (compress (compress siblings).children).children.map plain = (compress siblings).children.map plain :=
  compress_compress_of_distinct ((atAllLevels_distinct_iff siblings hregular).mpr h)

/-- Compressed siblings that lose no node when they are compressed again have no repeated selectors. -/
theorem selectorsDistinct_of_population (hregular : ∀ n ∈ siblings, n.Within Word.Regular)
    (h : population (compress siblings).children ≤
      population (compress (compress siblings).children).children) :
    AtAllLevels SelectorsDistinct (compress siblings).children :=
  (atAllLevels_distinct_iff siblings hregular).mp (distinct_of_population h)

end StyleFold
