/-
  Verified — every merge pass verifies against the tree it was given.

  The walk of `Node.verify` follows origins, so it asks of each merged node two things: that the
  siblings its origin names are there and correspond to it, and that what it holds is in turn a merged
  form of their children.

  That a pass verifies is no triviality of its definition: the walk does not run the pass again.  It
  reads origins and counts, which the pass has written at different places, and tests each original
  against the node that it was folded into.

  1. **Correspondence** — nodes of one kind and one header never mismatch.
  2. **Accounts** — a pass *accounts* for a sibling list when the numbers balance and every node it leaves
     is *made of* siblings of the list.  An account is all that the walk checks (`Accounts.check_eq_nil`).
  3. **The passes** — merging by header accounts for a list if it does for the union of each class,
     merging by content if it does for the children of each sibling; by induction both always do.
  4. **Compiles** — so no compile finds a violation.
-/
import StyleFold.Compile
import StyleFold.Proofs.Merge.Classes

namespace StyleFold

/-! ## Correspondence

  Headers are compared tidied by the walk and as they stand by the key, so equal keys are more than
  enough. -/

namespace Node

/-- Nodes of one kind and one header do not mismatch, and of rules the kind is enough. -/
theorem mismatch?_eq_none {original merged : Node} (hkind : original.kind = merged.kind)
    (hheader : original.kind = .rule ∨ original.headerText = merged.headerText) :
    original.mismatch? merged = none := by
  unfold mismatch?
  rw [if_neg (not_not_intro hkind)]
  cases original with
  | rule line origin selectors declarations => rfl
  | importStatement line origin statement =>
    have : statement = merged.headerText := hheader.resolve_left (by simp [kind])
    exact if_pos (congrArg Text.tidy this)
  | block line origin head reduced children =>
    cases head with
    | sheet => rfl
    | atRule kind header =>
      have : header = merged.headerText :=
        hheader.resolve_left (by cases kind <;> simp [Node.kind, AtKind.toKind])
      exact if_pos (congrArg Text.tidy this)

/-! ## Accounts

  An account is what a pass has to show for one sibling list, in numbers and in nodes; the levels below
  enter through `Sound`. -/

variable {siblings : List Node} {child : Node} {ms : List Sibling}

/-- The node names the siblings `ms` as its origin, and they stand there and correspond to it. -/
structure MadeOf (siblings : List Node) (child : Node) (ms : List Sibling) : Prop where
  origin_eq : child.origin = ms.map Prod.snd
  mem_all : ∀ m ∈ ms, m ∈ Sibling.all siblings
  mismatch_eq : ∀ m ∈ ms, m.1.mismatch? child = none

/-- The origin of a node finds what the node is made of, and nothing to report. -/
theorem MadeOf.resolve_eq (h : MadeOf siblings child ms) :
    resolve siblings child = (ms.map Prod.fst, []) := by
  have hfound : child.origin.map (originalAt siblings child) =
      ms.map fun m => Except.ok m.1 := by
    rw [h.origin_eq, List.map_map]
    refine List.map_congr_left fun m hm => ?_
    have hat := Sibling.getElem?_of_mem_all (h.mem_all m hm)
    simp only [Function.comp_apply, originalAt, hat, h.mismatch_eq m hm]
  rw [resolve, hfound, List.filterMap_map, List.filterMap_map]
  refine Prod.ext ?_ ?_
  · exact congrFun List.filterMap_eq_map ms
  · exact List.filterMap_eq_nil_iff.mpr fun m _ => rfl

/-- A node of which the walk reports nothing, itself and what it holds. -/
def Sound (siblings : List Node) (child : Node) : Prop :=
  ∃ ms, MadeOf siblings child ms ∧ (child.kind.isContainer = true →
    ∀ anchor, check anchor ((ms.map Prod.fst).flatMap children) child = [])

/-- Sound siblings are reported nothing of. -/
theorem checkSiblings_eq_nil : ∀ {children : List Node},
    (∀ child ∈ children, Sound siblings child) → checkSiblings siblings children = []
  | [], _ => by rw [checkSiblings]
  | child :: rest, h => by
    obtain ⟨ms, hmade, hbelow⟩ := h child List.mem_cons_self
    have hrest : checkSiblings siblings rest = [] :=
      checkSiblings_eq_nil fun other hother => h other (List.mem_cons_of_mem child hother)
    rw [checkSiblings, hmade.resolve_eq, hrest]
    by_cases hc : child.kind.isContainer = true
    · simp [hc, hbelow hc]
    · simp [hc]

end Node

namespace Pass

/-- The numbers balance, and every node left is sound. -/
structure Accounts (siblings : List Node) (p : Pass) : Prop where
  length_eq : siblings.length = p.children.length + p.reduced
  sound : ∀ child ∈ p.children, Node.Sound siblings child

variable {siblings : List Node} {p : Pass}

/-- The walk reports nothing of a block that holds what the pass left. -/
theorem Accounts.check_eq_nil (h : p.Accounts siblings) (anchor : Node) (line : Nat)
    (origin : List Nat) (head : Head) :
    Node.check anchor siblings (.block line origin head p.reduced p.children) = [] := by
  have hword : UInt64.ofNat siblings.length = Counter.sum p.children.length p.reduced := by
    rw [Counter.sum_eq_ofNat, h.length_eq]
  rw [Node.check, Node.countMismatch?, if_pos hword]
  exact Node.checkSiblings_eq_nil h.sound

/-- What holds nothing is rebuilt as it is. -/
theorem Accounts.verify_eq_nil {tree : Node} (h : p.Accounts tree.children) :
    tree.verify (tree.afterPass p) = [] := by
  cases tree with
  | rule line origin selectors declarations => rfl
  | importStatement line origin statement => rfl
  | block line origin head reduced children => exact h.check_eq_nil _ line [] head

end Pass

/-! ## The passes

  Both inductions are those of the passes, and at each step there are three sorts of nodes: imports,
  siblings that are kept, and classes that are folded. -/

/-- An import statement goes through as itself. -/
theorem Node.sound_of_isImport {siblings : List Node} {m : Sibling}
    (hm : m ∈ Sibling.all siblings) (hi : m.1.isImport = true) :
    Sound siblings (m.1.withOrigin [m.2]) := by
  refine ⟨[m], ⟨Node.origin_withOrigin _ _, ?_, ?_⟩, fun hc => ?_⟩
  · rintro a ha
    rwa [List.mem_singleton.mp ha]
  · rintro a ha
    rw [List.mem_singleton.mp ha]
    exact mismatch?_eq_none (kind_withOrigin _ _).symm (.inr (headerText_withOrigin _ _).symm)
  · rcases m with ⟨_ | _ | _, position⟩
    · exact absurd hi (by simp [isImport])
    · exact absurd hc (by simp [withOrigin, kind, Kind.isContainer])
    · exact absurd hi (by simp [isImport])

/-- The containers are the blocks. -/
theorem Node.isContainer_kind_iff {n : Node} :
    n.kind.isContainer = true ↔ ∃ line origin head reduced children,
      n = block line origin head reduced children := by
  constructor
  · intro h
    cases n with
    | rule line origin selectors declarations => exact absurd h (by simp [kind, Kind.isContainer])
    | importStatement line origin statement => exact absurd h (by simp [kind, Kind.isContainer])
    | block line origin head reduced children => exact ⟨line, origin, head, reduced, children, rfl⟩
  · rintro ⟨line, origin, head, reduced, children, rfl⟩
    exact isContainer_kind_block line origin head reduced children

namespace SameHeader

variable {siblings : List Node} {g : Group Sibling} {inner : Pass}

/-- A class is folded to a node of its kind. -/
theorem kind_fold (g : Group Sibling) (inner : Pass) : (fold g inner).kind = g.first.1.kind := by
  unfold fold
  split
  · rename_i hfirst
    rw [hfirst]
    rfl
  · rename_i hfirst
    rw [hfirst]
    rfl
  · rename_i head _ _ hfirst
    rw [hfirst]
    cases head <;> rfl

/-- It keeps the header text, unless it is a class of rules, whose selectors are sorted. -/
theorem headerText_fold (h : g.first.1.kind ≠ .rule) (inner : Pass) :
    (fold g inner).headerText = g.first.1.headerText := by
  unfold fold
  split
  · rename_i hfirst
    exact absurd (by rw [hfirst]; rfl) h
  · rename_i hfirst
    rw [hfirst]
    rfl
  · rename_i head _ _ hfirst
    rw [hfirst]
    cases head <;> rfl

/-- Its origin are the positions of the members. -/
theorem origin_fold (g : Group Sibling) (inner : Pass) :
    (fold g inner).origin = Sibling.positions g := by
  rw [fold]
  split
  · rfl
  · exact Node.origin_withOrigin _ _
  · exact Node.origin_withOrigin _ _

/-- A class becomes a sound node if its union is accounted for. -/
theorem sound_fold (hg : g ∈ classes siblings) (hinner : inner.Accounts (union g)) :
    Node.Sound siblings (fold g inner) := by
  refine ⟨g.members, ⟨origin_fold g inner, fun m hm => mem_all_of_mem_members hg hm, ?_⟩, ?_⟩
  -- the header of a rule may change, since its selectors are sorted, but it is not compared
  · intro m hm
    have hkey : m.1.headerKey = g.first.1.headerKey := Group.key_eq hg hm
    have hkind : m.1.kind = g.first.1.kind := by
      rw [← Node.fst_headerKey, hkey, Node.fst_headerKey]
    refine Node.mismatch?_eq_none (hkind.trans (kind_fold g inner).symm) ?_
    by_cases hr : g.first.1.kind = .rule
    · exact .inl (hkind.trans hr)
    · right
      rw [headerText_fold hr, ← Node.snd_headerKey hr, ← hkey,
        Node.snd_headerKey (hkind ▸ hr)]
  · intro hc anchor
    have hunion : (g.members.map Prod.fst).flatMap Node.children = union g :=
      List.flatMap_map _ _ _
    rw [hunion]
    have hk : g.first.1.kind.isContainer = true := kind_fold g inner ▸ hc
    obtain ⟨line, origin, head, reduced, children, hfirst⟩ := Node.isContainer_kind_iff.mp hk
    rw [fold, hfirst]
    exact hinner.check_eq_nil anchor line _ head

/-- Merging by header accounts for every sibling list. -/
theorem accounts_pass (siblings : List Node) : (pass siblings).Accounts siblings := by
  induction siblings using union_ind with
  | step siblings ih =>
    have hperm := pass_children_perm siblings
    refine ⟨?_, fun child hchild => ?_⟩
    -- imports are kept one by one, and of the others each class leaves one node
    · have hclasses : (classes siblings).length + Group.takenAway (classes siblings) = _ :=
        Group.length_groups_add_takenAway _ _
      have hall := Sibling.length_filter_add (fun m => m.1.isImport) siblings
      rw [hperm.length_eq, pass_reduced, List.length_append, List.length_map, Sibling.imports,
        List.length_map]
      omega
    · rcases List.mem_append.mp (hperm.mem_iff.mp hchild) with himport | hfold
      · obtain ⟨m, hm, rfl⟩ := List.mem_map.mp himport
        obtain ⟨hall, hi⟩ := List.mem_filter.mp hm
        exact Node.sound_of_isImport hall hi
      · obtain ⟨g, hg, rfl⟩ := List.mem_map.mp hfold
        exact sound_fold hg (ih g hg)

end SameHeader

namespace SameContent

variable {siblings : List Node} {g : Group Sibling}

/-- A class of rules becomes a sound rule. -/
theorem sound_fold (hg : g ∈ classes siblings) : Node.Sound siblings (fold g) := by
  refine ⟨g.members, ⟨rfl, fun m hm => mem_all_of_mem_members hg hm, ?_⟩, ?_⟩
  · intro m hm
    have hk := kind_of_mem_members hg hm
    exact Node.mismatch?_eq_none hk (.inl hk)
  · intro hc
    exact absurd hc (by simp [fold, Node.kind, Kind.isContainer])

/-- A node that is no rule is sound if what it holds is accounted for. -/
theorem sound_of_keep {m : Sibling} {inner : Pass} {child : Node}
    (hm : m ∈ Sibling.all siblings) (hinner : inner.Accounts m.1.children)
    (hkeep : keep m.2 inner m.1 = some child) : Node.Sound siblings child := by
  rcases m with ⟨n, position⟩
  cases n with
  | rule line origin selectors declarations => exact absurd hkeep (by simp [keep])
  | importStatement line origin statement =>
    obtain rfl := Option.some.inj hkeep
    exact Node.sound_of_isImport hm rfl
  | block line origin head reduced children =>
    obtain rfl := Option.some.inj hkeep
    refine ⟨[_], ⟨rfl, ?_, ?_⟩, fun _ anchor => ?_⟩
    · rintro a ha
      exact List.mem_singleton.mp ha ▸ hm
    · rintro a ha
      rw [List.mem_singleton.mp ha]
      exact Node.mismatch?_eq_none (by cases head <;> rfl) (.inr (by cases head <;> rfl))
    · rw [List.map_singleton, List.flatMap_singleton]
      exact hinner.check_eq_nil anchor line [position] head

/-- All but rules are kept. -/
theorem isSome_keep (position : Nat) (inner : Pass) (n : Node) :
    (keep position inner n).isSome = !(n.kind == .rule) := by
  cases n with
  | rule line origin selectors declarations => rfl
  | importStatement line origin statement => rfl
  | block line origin head reduced children =>
    rcases head with _ | ⟨kind, _⟩
    · rfl
    · cases kind <;> rfl

/-- As many siblings are kept as are no rules. -/
theorem length_filterMap_keep (inner : Sibling → Pass) (ms : List Sibling) :
    (ms.filterMap fun m => keep m.2 (inner m) m.1).length =
      (ms.filter fun m => !(m.1.kind == .rule)).length := by
  rw [List.length_filterMap_eq_countP, ← List.countP_eq_length_filter]
  simp only [isSome_keep]

/-- Merging by content accounts for every sibling list. -/
theorem accounts_pass (siblings : List Node) : (pass siblings).Accounts siblings := by
  induction siblings using children_ind with
  | step siblings ih =>
    have hperm := pass_children_perm siblings
    refine ⟨?_, fun child hchild => ?_⟩
    · have hclasses : (classes siblings).length + Group.takenAway (classes siblings) = _ :=
        Group.length_groups_add_takenAway _ _
      have hall := Sibling.length_filter_add (fun m => m.1.kind == .rule) siblings
      rw [hperm.length_eq, pass_reduced, List.length_append, List.length_map,
        length_filterMap_keep]
      omega
    · rcases List.mem_append.mp (hperm.mem_iff.mp hchild) with hkept | hfold
      · obtain ⟨m, hm, hkeep⟩ := List.mem_filterMap.mp hkept
        exact sound_of_keep hm (ih m.1 (Sibling.mem_of_mem_all hm)) hkeep
      · obtain ⟨g, hg, rfl⟩ := List.mem_map.mp hfold
        exact sound_fold hg

end SameContent

/-! ## Compiles

  A compile verifies each of its two merges against the tree that the merge was given. -/

/-- A tree merged by header verifies against the tree. -/
theorem Node.verify_mergeByHeader (tree : Node) : tree.verify tree.mergeByHeader = [] :=
  (SameHeader.accounts_pass tree.children).verify_eq_nil

/-- A tree merged by content verifies against the tree. -/
theorem Node.verify_mergeByContent (tree : Node) : tree.verify tree.mergeByContent = [] :=
  (SameContent.accounts_pass tree.children).verify_eq_nil

/-- Both passes verify on every tree, and so no compile is ever inconsistent. -/
theorem merges_consistent :
    (∀ tree : Node, tree.verify tree.mergeByHeader = [] ∧ tree.verify tree.mergeByContent = []) ∧
      ∀ (settings : Settings) (text : Text) (c : Compilation), compile settings text = .ok c →
        c.violations = [] ∧ c.isConsistent = true := by
  refine ⟨fun tree => ⟨tree.verify_mergeByHeader, tree.verify_mergeByContent⟩, ?_⟩
  intro settings text c hc
  obtain ⟨parsed, -, rfl⟩ := ofTree_of_compile hc
  have hnone : (Compilation.ofTree settings (UserStyle.split text).1 parsed).violations = [] := by
    have hheader := parsed.verify_mergeByHeader
    have hcontent := parsed.mergeByHeader.verify_mergeByContent
    show (if settings.verify then parsed.verify parsed.mergeByHeader ++
      parsed.mergeByHeader.verify parsed.mergeByHeader.mergeByContent else []) = []
    rw [hheader, hcontent, List.append_nil, ite_self]
  exact ⟨hnone, by rw [Compilation.isConsistent, hnone]; rfl⟩

/-- Two media blocks of one header, whose rules meet only in their union. -/
def nestedUnion : Text := "@media p\x7b.a\x7bx:1\x7d\x7d@media p\x7b.a\x7by:2\x7d\x7d".toList

/-- The compile of the two media blocks is consistent. -/
theorem merges_consistent_nestedUnion : ∃ c,
    compile {} nestedUnion = .ok c ∧ c.violations = [] ∧ c.isConsistent = true := by
  have hok : (compile {} nestedUnion).isOk = true := by decide +kernel
  cases hc : compile {} nestedUnion with
  | ok c => exact ⟨c, rfl, merges_consistent.2 {} nestedUnion c hc⟩
  | error failure =>
    rw [hc] at hok
    exact absurd hok Bool.false_ne_true

end StyleFold
