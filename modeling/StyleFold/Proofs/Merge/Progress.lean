/-
  Progress — compressing again either takes nodes away or changes nothing.

  A compressed tree is not always a fixed point.  It is one after finitely many rounds, though, since
  every round that changes the tree makes it smaller; the number of rounds is bounded by the number of
  nodes.

  1. **Nothing changes** — compressing arranged siblings of distinct keys leaves them as they are.
  2. **Nodes go away** — compressing never adds a node, and if it takes none away, merging by header found
     nothing to merge at any level.
  3. **Rounds** — a compressed tree is arranged, and its rules are distinct by content.  So each further
     round is of one of the two sorts, and there are at most as many rounds as nodes
     (`compressed_progress`).
-/
import Mathlib.Logic.Function.Iterate
import StyleFold.Proofs.Merge.Compressed

namespace StyleFold

open Node

variable {siblings : List Node}

/-! ## Nothing changes

  Where all keys are distinct, the first pass changes no more than origins and counts, which the second
  one does not see. -/

/-- Compressing does not look at origins and counts. -/
theorem compress_map_plain (siblings : List Node) : compress (siblings.map plain) = compress siblings := by
  rw [compress, compress]
  exact congrArg (fun p => SameContent.pass p.children) (SameHeader.pass_relabel siblings)

/-- Where there is nothing to merge, the arranged siblings stay as they are. -/
theorem compress_of_distinct (hheader : AtAllLevels SameHeader.Distinct siblings)
    (hcontent : AtAllLevels SameContent.Distinct siblings) (harranged : AtAllLevels Arranged siblings) :
    (compress siblings).children.map plain = siblings.map plain := by
  have hfirst : (SameHeader.pass siblings).children.map plain = siblings.map plain :=
    SameHeader.pass_of_distinct siblings hheader harranged
  -- the second pass does not see what the first one did to origins and counts
  have hsecond : compress siblings = SameContent.pass siblings := by
    rw [compress, ← @SameContent.pass_relabel fun _ => 0]
    show SameContent.pass ((SameHeader.pass siblings).children.map plain) = _
    rw [hfirst]
    exact SameContent.pass_relabel siblings
  rw [hsecond]
  exact SameContent.pass_of_distinct siblings hcontent (harranged.mono fun h => h.toArranged)

/-- Compressed siblings in which there is nothing to merge by header stay as they are. -/
theorem compress_compress_of_distinct (h : AtAllLevels SameHeader.Distinct (compress siblings).children) :
    (compress (compress siblings).children).children.map plain = (compress siblings).children.map plain :=
  compress_of_distinct h (atAllLevels_compress (fun _ => SameContent.distinct_pass _) siblings)
    (atAllLevels_compress arranged_compress siblings)

/-! ## Nodes go away

  The balance of both passes tells how many nodes they took away together. -/

/-- If no node goes away, merging by header finds nothing to merge. -/
theorem distinct_of_population (h : population siblings ≤ population (compress siblings).children) :
    AtAllLevels SameHeader.Distinct siblings := by
  have hfirst := SameHeader.sources_pass siblings
  have hsecond := SameContent.sources_pass (SameHeader.pass siblings).children
  simp only [sources, compress] at *
  exact SameHeader.distinct_of_totalReduced siblings (by omega) (by omega)

/-! ## Rounds

  By induction on the nodes that the compressed tree has left. -/

namespace Node

/-- Compressing does not see origins and counts. -/
theorem compressed_plain (n : Node) : n.plain.compressed = n.compressed := by
  cases n with
  | rule line origin selectors declarations => rw [plain, relabel_rule]; rfl
  | importStatement line origin statement => rw [plain, relabel_importStatement]; rfl
  | block line origin head reduced children =>
    rw [plain, relabel_block, compressed_block, compressed_block]
    show block line [] head (compress (children.map plain)).reduced
      (compress (children.map plain)).children = _
    rw [compress_map_plain]

/-- A compressed tree stays as it is, or has fewer nodes when it is compressed again. -/
theorem compressed_step (tree : Node) : tree.compressed.compressed.plain = tree.compressed.plain ∨
    tree.compressed.compressed.descendants < tree.compressed.descendants := by
  cases tree with
  | rule line origin selectors declarations => exact .inl rfl
  | importStatement line origin statement => exact .inl rfl
  | block line origin head reduced children =>
    rw [compressed_block, compressed_block, descendants, descendants, plain, plain, relabel_block,
      relabel_block]
    rcases Nat.lt_or_ge (population (compress (compress children).children).children)
      (population (compress children).children) with hlt | hge
    · exact .inr hlt
    · have hsame := compress_compress_of_distinct (distinct_of_population hge)
      exact .inl (congrArg (block line [] head 0) hsame)

/-- What a round leaves as it is, all further rounds do. -/
theorem iterate_compressed_plain {n : Node} (h : n.compressed.plain = n.plain) :
    ∀ m, (compressed^[m] n).plain = n.plain
  | 0 => rfl
  | m + 1 => by
    rw [Function.iterate_succ_apply', ← compressed_plain, iterate_compressed_plain h m, compressed_plain, h]

/-- The rounds after the first end, after no more of them than there are nodes. -/
theorem compressed_rounds : ∀ (bound : Nat) (tree : Node), tree.compressed.descendants ≤ bound →
    ∃ k ≤ bound, ∀ m ≥ k,
      (compressed^[m] tree.compressed).plain = (compressed^[k] tree.compressed).plain := by
  intro bound
  induction bound with
  | zero =>
    intro tree hle
    rcases compressed_step tree with hsame | hlt
    · exact ⟨0, Nat.le_refl 0, fun m _ => iterate_compressed_plain hsame m⟩
    · omega
  | succ bound ih =>
    intro tree hle
    rcases compressed_step tree with hsame | hlt
    · exact ⟨0, Nat.zero_le _, fun m _ => iterate_compressed_plain hsame m⟩
    -- one round is made, and the rest are those of the smaller tree
    · obtain ⟨k, hk, hrounds⟩ := ih tree.compressed (by omega)
      refine ⟨k + 1, by omega, fun m hm => ?_⟩
      obtain ⟨m, rfl⟩ : ∃ m', m = m' + 1 := ⟨m - 1, by omega⟩
      exact hrounds m (by omega)

/-- Compressing a compressed tree leaves it as it is, up to origins and counts, or takes nodes away; so
after at most as many rounds as it has nodes nothing changes any more. -/
theorem compressed_progress (tree : Node) :
    (tree.compressed.compressed.plain = tree.compressed.plain ∨
        tree.compressed.compressed.descendants < tree.compressed.descendants) ∧
      ∃ k ≤ tree.compressed.descendants, ∀ m ≥ k,
        (compressed^[m] tree.compressed).plain = (compressed^[k] tree.compressed).plain :=
  ⟨compressed_step tree, compressed_rounds _ tree (Nat.le_refl _)⟩

end Node

end StyleFold
