/-
  Levels — the nodes below a node, and properties of all sibling lists of a tree.

  Most properties of merged trees are properties of sibling lists that hold at every level.  Levels are
  counted by lists here and not by depth, since merging makes lists from several places into one.

  1. **Listings** — who stands in the preorder listing of a tree or of siblings.
  2. **All levels** — a property of a sibling list and of every sibling list below it.
  3. **Import statements** — sibling lists in which they stand behind everything else.
-/
import StyleFold.Tree.Walk

namespace StyleFold.Node

/-! ## Listings -/

/-- A walk visits a node, and then what it holds. -/
theorem preorder_eq (n : Node) : n.preorder = n :: preorderAll n.children := by
  cases n with
  | block line origin head reduced children => rw [preorder]; rfl
  | _ => rw [preorder]; rfl

theorem preorderAll_eq_flatMap : ∀ ns : List Node, preorderAll ns = ns.flatMap preorder
  | [] => by rw [preorderAll]; rfl
  | n :: ns => by rw [preorderAll, preorderAll_eq_flatMap ns]; rfl

/-- What stands below siblings stands below one of them. -/
theorem mem_preorderAll {m : Node} : ∀ {ns : List Node},
    m ∈ preorderAll ns ↔ ∃ n ∈ ns, m ∈ n.preorder
  | [] => by rw [preorderAll]; simp
  | n :: ns => by
    have ih : m ∈ preorderAll ns ↔ ∃ n ∈ ns, m ∈ n.preorder := mem_preorderAll
    rw [preorderAll, List.mem_append, ih]
    simp

/-- What holds of a block and of all below its children holds of all below the block. -/
theorem forall_mem_preorder_block {P : Node → Prop} {line reduced : Nat} {origin : List Nat}
    {head : Head} {children : List Node} :
    (∀ m ∈ (block line origin head reduced children).preorder, P m) ↔
      P (block line origin head reduced children) ∧ ∀ c ∈ children, ∀ m ∈ c.preorder, P m := by
  rw [preorder, List.forall_mem_cons]
  refine and_congr_right fun _ => ⟨fun h c hc m hm => h m (mem_preorderAll.mpr ⟨c, hc, hm⟩), ?_⟩
  intro h m hm
  obtain ⟨c, hc, hm⟩ := mem_preorderAll.mp hm
  exact h c hc m hm

/-- The children of a listed node are listed. -/
theorem mem_preorder_of_child {m c : Node} (n : Node) :
    m ∈ n.preorder → c ∈ m.children → c ∈ n.preorder := by
  induction n using Node.ind with
  | rule line origin selectors declarations =>
    rw [preorder, List.mem_singleton]
    rintro rfl hc
    exact absurd hc List.not_mem_nil
  | importStatement line origin statement =>
    rw [preorder, List.mem_singleton]
    rintro rfl hc
    exact absurd hc List.not_mem_nil
  | block line origin head reduced children ih =>
    rw [preorder, List.mem_cons]
    rintro (rfl | hm) hc
    · exact List.mem_cons_of_mem _ (mem_preorderAll.mpr ⟨c, hc, preorder_eq c ▸ List.mem_cons_self⟩)
    · obtain ⟨d, hd, hm⟩ := mem_preorderAll.mp hm
      exact List.mem_cons_of_mem _ (mem_preorderAll.mpr ⟨d, hd, ih d hd hm hc⟩)

theorem preorderAll_append (ms ns : List Node) :
    preorderAll (ms ++ ns) = preorderAll ms ++ preorderAll ns := by
  induction ms with
  | nil => rw [preorderAll]; rfl
  | cons m ms ih => rw [List.cons_append, preorderAll, preorderAll, ih, List.append_assoc]

/-! ## All levels

  Stated over the walk, and used level by level. -/

variable {P : List Node → Prop} {siblings : List Node}

/-- Whether the sibling list and every sibling list below it has the property. -/
def AtAllLevels (P : List Node → Prop) (siblings : List Node) : Prop :=
  P siblings ∧ ∀ n ∈ preorderAll siblings, P n.children

instance [DecidablePred P] : Decidable (AtAllLevels P siblings) :=
  inferInstanceAs (Decidable (P siblings ∧ ∀ n ∈ preorderAll siblings, P n.children))

/-- What holds at all levels holds of the siblings and at all levels below each of them. -/
theorem atAllLevels_iff :
    AtAllLevels P siblings ↔ P siblings ∧ ∀ n ∈ siblings, AtAllLevels P n.children := by
  refine and_congr_right fun _ => ⟨fun h n hn => ?_, fun h m hm => ?_⟩
  · have hbelow : ∀ m ∈ n.preorder, P m.children := fun m hm => h m (mem_preorderAll.mpr ⟨n, hn, hm⟩)
    rw [preorder_eq] at hbelow
    exact List.forall_mem_cons.mp hbelow
  · obtain ⟨n, hn, hm⟩ := mem_preorderAll.mp hm
    rw [preorder_eq] at hm
    rcases List.mem_cons.mp hm with rfl | hm
    · exact (h m hn).1
    · exact (h n hn).2 m hm

/-- A weaker property holds at all levels as well. -/
theorem AtAllLevels.mono {Q : List Node → Prop} (h : AtAllLevels P siblings)
    (hpq : ∀ {ns}, P ns → Q ns) : AtAllLevels Q siblings :=
  ⟨hpq h.1, fun n hn => hpq (h.2 n hn)⟩

theorem atAllLevels_nil (h : P []) : AtAllLevels P [] :=
  ⟨h, fun _ hn => absurd hn List.not_mem_nil⟩

/-! ## Import statements -/

variable {others statements : List Node}

theorem filter_others (hothers : ∀ n ∈ others, n.isImport = false)
    (hstatements : ∀ n ∈ statements, n.isImport = true) :
    (others ++ statements).filter (fun n => !n.isImport) = others := by
  rw [List.filter_append, List.filter_eq_self.mpr fun n hn => by rw [hothers n hn]; rfl,
    List.filter_eq_nil_iff.mpr fun n hn => by simp [hstatements n hn], List.append_nil]

theorem filter_imports (hothers : ∀ n ∈ others, n.isImport = false)
    (hstatements : ∀ n ∈ statements, n.isImport = true) :
    (others ++ statements).filter isImport = statements := by
  rw [List.filter_append, List.filter_eq_nil_iff.mpr fun n hn => by simp [hothers n hn],
    List.filter_eq_self.mpr hstatements, List.nil_append]

end StyleFold.Node
