/-
  DeclarationSets — which rules of a compressed sheet have the same set of declarations.

  Merging by content compares declarations as sorted lists, so that a declaration counts as often as it
  stands in a rule.  Rules that differ only in how often they repeat a declaration stay apart.

  The documents say that rules with the same set of declarations are merged.  The pass compares sorted
  lists. For rules that repeat no declaration this is the same; for the others it is not, and exactly
  how far it differs is the subject of this module.

  1. **Rules of one set** — siblings among which no two rules have the same set of declarations, and
     siblings whose rules of one set repeat every declaration equally often.
  2. **The pass** — no two siblings of the first sort come out exactly if those of the second go in, at
     the top (`setsDistinct_pass_iff`) and at all levels (`atAllLevels_setsDistinct_iff`).
  3. **Compressed trees** — rules of permuted declarations never stand side by side, and rules of one set
     never do exactly if merging by header left none that repeat a declaration differently often
     (`compressed_setsDistinct_iff`).
-/
import Mathlib.Data.List.Pairwise
import StyleFold.Proofs.Merge.Compressed
import StyleFold.Scan.Sheet

namespace StyleFold

open Node Tally

variable {siblings : List Node} {n : Node}

/-! ## Rules of one set

  Two readings of equal declarations, as sets and as lists in any order, and the condition under which
  they agree. -/

namespace Node

/-- Whether no two rules among the siblings have the same set of declarations. -/
def SetsDistinct (siblings : List Node) : Prop := siblings.Pairwise fun a b =>
  a.kind = .rule → b.kind = .rule → ¬ SameElements a.declarations b.declarations

/-- Whether no two rules among the siblings have the same declarations, in any order. -/
def ListsDistinct (siblings : List Node) : Prop := siblings.Pairwise fun a b =>
  a.kind = .rule → b.kind = .rule → ¬ a.declarations.Perm b.declarations

/-- Whether any two rules among the siblings that have the same set of declarations repeat each of these
equally often. -/
def RepeatsAgree (siblings : List Node) : Prop := ∀ a ∈ siblings, ∀ b ∈ siblings,
  a.kind = .rule → b.kind = .rule → SameElements a.declarations b.declarations →
    a.declarations.Perm b.declarations

end Node

namespace Tally

variable {β : Type} {as bs cs : List β}

theorem SameElements.of_perm (h : as.Perm bs) : SameElements as bs := fun _ => h.mem_iff

theorem SameElements.symm (h : SameElements as bs) : SameElements bs as := fun x => (h x).symm

theorem SameElements.trans (h : SameElements as bs) (h' : SameElements bs cs) : SameElements as cs :=
  fun x => (h x).trans (h' x)

end Tally

/-! ## The pass

  Merging by content brings in no rule whose declarations were not there before, and loses none up to
  order, so the condition may be read off the siblings before the pass. -/

namespace SameContent

/-- Distinct rules have declarations that differ by more than their order. -/
theorem listsDistinct_of_distinct (h : Distinct siblings) : ListsDistinct siblings := by
  rw [Distinct, List.Nodup, List.pairwise_map, List.pairwise_filter] at h
  refine h.imp fun hab ha hb hperm => ?_
  exact hab (by simpa using ha) (by simpa using hb) (contentKey_eq_iff.mpr hperm)

/-- The rules that merging by content leaves have the declarations of rules that it was given. -/
theorem exists_source (hn : n ∈ (pass siblings).children) (hrule : n.kind = .rule) :
    ∃ a ∈ siblings, a.kind = .rule ∧ n.declarations.Perm a.declarations := by
  have hmem : n ∈ (pass siblings).children.filter fun n => n.kind == .rule :=
    List.mem_filter.mpr ⟨hn, by simpa using hrule⟩
  obtain ⟨g, hg, rfl⟩ := List.mem_map.mp ((rules_pass_perm siblings).mem_iff.mp hmem)
  have hfirst : g.first ∈ g.members := List.mem_cons_self
  exact ⟨g.first.1, Sibling.mem_of_mem_all (mem_all_of_mem_members hg hfirst),
    kind_of_mem_members hg hfirst, contentKey_perm g.first.1⟩

/-- Every rule has its declarations in a rule that merging by content leaves. -/
theorem exists_merged (hn : n ∈ siblings) (hrule : n.kind = .rule) :
    ∃ a ∈ (pass siblings).children, a.kind = .rule ∧ a.declarations.Perm n.declarations := by
  have hmem : n ∈ siblings.filter fun m => m.kind == .rule :=
    List.mem_filter.mpr ⟨hn, by simpa using hrule⟩
  rw [← Sibling.map_fst_filter fun m => m.kind == .rule] at hmem
  obtain ⟨m, hm, rfl⟩ := List.mem_map.mp hmem
  obtain ⟨g, hg, hkey⟩ : ∃ g ∈ classes siblings, contentKey g.first.1 = contentKey m.1 :=
    Group.exists_of_mem hm
  have hfold : fold g ∈ (pass siblings).children :=
    (pass_children_perm siblings).mem_iff.mpr (List.mem_append_right _ (List.mem_map_of_mem hg))
  exact ⟨fold g, hfold, rfl, (contentKey_perm g.first.1).trans (contentKey_eq_iff.mp hkey)⟩

/-- Merging by content leaves no two rules of one set exactly if the rules of one set that it was given
repeat every declaration equally often. -/
theorem setsDistinct_pass_iff (siblings : List Node) :
    SetsDistinct (pass siblings).children ↔ RepeatsAgree siblings := by
  have hlists := listsDistinct_of_distinct (distinct_pass siblings)
  constructor
  · intro hsets a ha b hb harule hbrule hsame
    obtain ⟨a', ha', harule', haperm⟩ := exists_merged ha harule
    obtain ⟨b', hb', hbrule', hbperm⟩ := exists_merged hb hbrule
    have hsame' : SameElements a'.declarations b'.declarations :=
      .trans (.of_perm haperm) (.trans hsame (.symm (.of_perm hbperm)))
    -- two rules of one set that were left can only be the same one
    obtain rfl : a' = b' := by
      by_contra hne
      have : Std.Symm fun a b : Node =>
          a.kind = .rule → b.kind = .rule → ¬ SameElements a.declarations b.declarations :=
        ⟨fun a b h hb ha hba => h ha hb hba.symm⟩
      exact List.Pairwise.forall hsets ha' hb' hne harule' hbrule' hsame'
    exact haperm.symm.trans hbperm
  · intro hagree
    refine List.Pairwise.imp_of_mem (fun {a b} ha hb hab harule hbrule hsame => ?_) hlists
    obtain ⟨a', ha', harule', haperm⟩ := exists_source ha harule
    obtain ⟨b', hb', hbrule', hbperm⟩ := exists_source hb hbrule
    have hsame' : SameElements a'.declarations b'.declarations :=
      .trans (.symm (.of_perm haperm)) (.trans hsame (.of_perm hbperm))
    have hperm := hagree a' ha' b' hb' harule' hbrule' hsame'
    exact hab harule hbrule (haperm.trans (hperm.trans hbperm.symm))

/-- What a block holds is merged in a block that merging by content leaves. -/
theorem exists_merged_children (hn : n ∈ siblings) (hkind : n.kind ≠ .rule) :
    ∃ m ∈ (pass siblings).children, m.children = (pass n.children).children := by
  obtain ⟨position, hmem⟩ : ∃ position, (n, position) ∈ Sibling.all siblings := by
    rw [← Sibling.map_fst_all siblings] at hn
    obtain ⟨m, hm, rfl⟩ := List.mem_map.mp hn
    exact ⟨m.2, hm⟩
  have hkeep : keep position (pass n.children) n =
      some ((n.afterPass (pass n.children)).withOrigin [position]) := by rw [keep_eq, if_neg hkind]
  refine ⟨_, (pass_children_perm siblings).mem_iff.mpr (List.mem_append_left _
    (List.mem_filterMap.mpr ⟨(n, position), hmem, hkeep⟩)), ?_⟩
  cases n with
  | rule line origin selectors declarations => exact absurd rfl hkind
  | importStatement line origin statement => rfl
  | block line origin head reduced children => rfl

/-- Merging by content leaves rules of different declaration sets at every level if and only if, at every
level before, rules of one set had the same repeats. -/
theorem atAllLevels_setsDistinct_iff (siblings : List Node) :
    AtAllLevels SetsDistinct (pass siblings).children ↔ AtAllLevels RepeatsAgree siblings := by
  induction siblings using children_ind with
  | step siblings ih =>
    rw [atAllLevels_iff, atAllLevels_iff (P := RepeatsAgree)]
    refine and_congr (setsDistinct_pass_iff siblings) ⟨fun h n hn => ?_, fun h n hn => ?_⟩
    · by_cases hkind : n.kind = .rule
      · obtain ⟨line, origin, selectors, declarations, rfl⟩ := exists_rule hkind
        exact atAllLevels_nil fun a ha => absurd ha List.not_mem_nil
      · obtain ⟨m, hm, hchildren⟩ := exists_merged_children hn hkind
        exact (ih n hn).mp (hchildren ▸ h m hm)
    · rcases children_of_mem_pass hn with hnil | ⟨b, hb, hchildren⟩
      · rw [hnil]
        exact atAllLevels_nil List.Pairwise.nil
      · rw [hchildren]
        exact (ih b hb).mpr (h b hb)

end SameContent

/-! ## Compressed trees

  The first pass joins declarations and so makes repeats; the condition is one on what it leaves. -/

/-- In no block of a compressed tree do two rules have the same declarations, in any order.  In no block
do two rules have the same set of declarations, exactly if in every block of the tree merged by header the
rules of one set repeat each declaration equally often. -/
theorem Node.compressed_setsDistinct_iff (tree : Node) :
    AtAllLevels ListsDistinct tree.compressed.children ∧
      (AtAllLevels SetsDistinct tree.compressed.children ↔
        AtAllLevels RepeatsAgree tree.mergeByHeader.children) := by
  have hchildren : tree.compressed.children = (SameContent.pass tree.mergeByHeader.children).children :=
    children_mergeByContent _
  rw [hchildren]
  constructor
  · refine SameContent.atAllLevels_pass (fun ns => ?_) _
    exact SameContent.listsDistinct_of_distinct (SameContent.distinct_pass ns)
  · exact SameContent.atAllLevels_setsDistinct_iff tree.mergeByHeader.children

/-- Two rules of one selector, and a rule of another with the same declaration. -/
def repeatedDeclaration : Text := ".a\x7bx:1\x7d.a\x7bx:1\x7d.b\x7bx:1\x7d".toList

/-- Merging by header makes a rule that has the declaration twice; it stays beside the one that has it
once. -/
example : (parse repeatedDeclaration).toOption.map (fun tree => tree.compressed.children) =
    some [.rule 1 [0] [".a".toList] ["x:1".toList, "x:1".toList],
      .rule 1 [1] [".b".toList] ["x:1".toList]] := by decide +kernel

end StyleFold
