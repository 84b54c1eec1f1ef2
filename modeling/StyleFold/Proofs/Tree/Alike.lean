/-
  Alike — trees that differ in the order of their children.

  Two notions for one thing, from two sides.  Reordering is how one would change the source; being alike
  is what survives the first pass, which unites the children of blocks from different places.

  1. **Reordered trees** — children of any blocks, at any depth, in another order.
  2. **Alike siblings** — sibling lists that hold the same nodes in any order, where what the blocks hold
     is alike, too; lines, origins and counts aside.
  3. **Congruence** — alike lists may be put together, and reordered trees hold alike lists.
  4. **What alike siblings share** — import statements, header keys, declarations and children, in some
     order; the siblings of one key are alike again; and what holds of all words of the one list holds
     of those of the other.
-/
import StyleFold.Proofs.Lookahead.Legible
import StyleFold.Proofs.Tree.Labels

namespace StyleFold

namespace Node

/-! ## Reordered trees -/

/-- The second tree is the first with the children of some of its blocks in another order. -/
inductive Reordered : Node → Node → Prop
  | refl (n : Node) : Reordered n n
  | permute {line reduced : Nat} {origin : List Nat} {head : Head} {children children' : List Node}
      (h : children.Perm children') : Reordered (block line origin head reduced children)
        (block line origin head reduced children')
  | inside {line reduced : Nat} {origin : List Nat} {head : Head} {before behind : List Node}
      {child child' : Node} (h : Reordered child child') :
      Reordered (block line origin head reduced (before ++ child :: behind))
        (block line origin head reduced (before ++ child' :: behind))
  | trans {a b c : Node} (hab : Reordered a b) (hbc : Reordered b c) : Reordered a c

end Node

open Node

/-- The siblings of a header key. -/
def Node.under (k : Kind × Text) (siblings : List Node) : List Node :=
  siblings.filter fun n => decide (n.headerKey = k)

namespace Node

variable {k : Kind × Text} {n : Node} {ns : List Node}

theorem under_cons_of_eq (h : n.headerKey = k) : under k (n :: ns) = n :: under k ns :=
  List.filter_cons_of_pos (by simpa using h)

theorem under_cons_of_ne (h : n.headerKey ≠ k) : under k (n :: ns) = under k ns :=
  List.filter_cons_of_neg (by simpa using h)

end Node

/-! ## Alike siblings -/

/-- The sibling lists hold the same, at every level in any order. -/
inductive Alike : List Node → List Node → Prop
  | nil : Alike [] []
  | rule {as bs : List Node} (line line' : Nat) (origin origin' : List Nat)
      (selectors declarations : List Text) (h : Alike as bs) :
      Alike (.rule line origin selectors declarations :: as)
        (.rule line' origin' selectors declarations :: bs)
  | importStatement {as bs : List Node} (line line' : Nat) (origin origin' : List Nat)
      (statement : Text) (h : Alike as bs) :
      Alike (.importStatement line origin statement :: as) (.importStatement line' origin' statement :: bs)
  | block {as bs children children' : List Node} (line line' : Nat) (origin origin' : List Nat)
      (head : Head) (reduced reduced' : Nat) (hchildren : Alike children children') (h : Alike as bs) :
      Alike (.block line origin head reduced children :: as)
        (.block line' origin' head reduced' children' :: bs)
  | swap (a b : Node) (as : List Node) : Alike (a :: b :: as) (b :: a :: as)
  | trans {as bs cs : List Node} (hab : Alike as bs) (hbc : Alike bs cs) : Alike as cs

namespace Alike

variable {as bs cs ds : List Node}

/-! ## Congruence

  Being alike goes along with everything that a pass does to a list. -/

theorem symm (h : Alike as bs) : Alike bs as := by
  induction h with
  | nil => exact .nil
  | rule _ _ _ _ _ _ _ ih => exact .rule _ _ _ _ _ _ ih
  | importStatement _ _ _ _ _ _ ih => exact .importStatement _ _ _ _ _ ih
  | block _ _ _ _ _ _ _ _ _ ihchildren ih => exact .block _ _ _ _ _ _ _ ihchildren ih
  | swap a b as => exact .swap b a as
  | trans _ _ ihab ihbc => exact .trans ihbc ihab

/-- Labels say nothing about what a node holds. -/
theorem relabel_cons {onLine onReduced : Nat → Nat} (n : Node) : ∀ {as bs : List Node}, Alike as bs →
    Alike (n.relabel onLine onReduced :: as) (n :: bs) := by
  induction n using Node.ind with
  | rule line origin selectors declarations =>
    intro as bs h
    rw [relabel_rule]
    exact .rule _ _ _ _ _ _ h
  | importStatement line origin statement =>
    intro as bs h
    rw [relabel_importStatement]
    exact .importStatement _ _ _ _ _ h
  | block line origin head reduced children ih =>
    intro as bs h
    rw [relabel_block]
    refine .block _ _ _ _ _ _ _ ?_ h
    clear h
    induction children with
    | nil => exact .nil
    | cons c children ihs =>
      exact ih c List.mem_cons_self (ihs fun d hd => ih d (List.mem_cons_of_mem c hd))

theorem map_relabel {onLine onReduced : Nat → Nat} : ∀ ns : List Node,
    Alike (ns.map (relabel onLine onReduced)) ns
  | [] => .nil
  | n :: ns => relabel_cons n (map_relabel ns)

/-- Siblings are alike to themselves. -/
theorem refl (ns : List Node) : Alike ns ns :=
  .trans (symm (map_relabel ns)) (@map_relabel id id ns)

/-- Nodes may be added in front. -/
theorem cons (n : Node) (h : Alike as bs) : Alike (n :: as) (n :: bs) :=
  .trans (symm (@relabel_cons id id n as as (refl as))) (relabel_cons n h)

/-- Siblings in another order are alike. -/
theorem of_perm (h : as.Perm bs) : Alike as bs := by
  induction h with
  | nil => exact .nil
  | cons n _ ih => exact cons n ih
  | swap a b as => exact .swap b a as
  | trans _ _ ih ih' => exact .trans ih ih'

theorem append_left (as : List Node) (h : Alike cs ds) : Alike (as ++ cs) (as ++ ds) := by
  induction as with
  | nil => exact h
  | cons a as ih => exact cons a ih

theorem append_right (cs : List Node) (h : Alike as bs) : Alike (as ++ cs) (bs ++ cs) := by
  induction h with
  | nil => exact refl cs
  | rule _ _ _ _ _ _ _ ih => exact .rule _ _ _ _ _ _ ih
  | importStatement _ _ _ _ _ _ ih => exact .importStatement _ _ _ _ _ ih
  | block _ _ _ _ _ _ _ hchildren _ _ ih => exact .block _ _ _ _ _ _ _ hchildren ih
  | swap a b as => exact .swap a b (as ++ cs)
  | trans _ _ ih ih' => exact .trans ih ih'

/-- Siblings that are alike may be put together. -/
theorem append (h : Alike as bs) (h' : Alike cs ds) : Alike (as ++ cs) (bs ++ ds) :=
  .trans (append_right cs h) (append_left bs h')

/-- Siblings that are equal up to labels are alike. -/
theorem of_map_relabel {onLine onReduced : Nat → Nat}
    (h : as.map (relabel onLine onReduced) = bs.map (relabel onLine onReduced)) : Alike as bs :=
  .trans (symm (map_relabel as)) (h ▸ map_relabel bs)

/-! ## What alike siblings share

  All that merging reads of a list, up to order. -/

/-- The statements of alike siblings differ in order at most. -/
theorem statements_perm (h : Alike as bs) :
    (as.filterMap statement?).Perm (bs.filterMap statement?) := by
  induction h with
  | nil => exact .nil
  | rule _ _ _ _ _ _ _ ih => exact ih
  | importStatement _ _ _ _ statement _ ih => exact ih.cons statement
  | block _ _ _ _ _ _ _ _ _ _ ih => exact ih
  | swap a b as => exact (List.Perm.swap b a as).filterMap _
  | trans _ _ ih ih' => exact ih.trans ih'

/-- So do their keys. -/
theorem headerKeys_perm (h : Alike as bs) : (as.map headerKey).Perm (bs.map headerKey) := by
  induction h with
  | nil => exact .nil
  | rule _ _ _ _ _ _ _ ih => exact ih.cons _
  | importStatement _ _ _ _ _ _ ih => exact ih.cons _
  | block line line' origin origin' head reduced reduced' _ _ _ ih =>
    rw [List.map_cons, List.map_cons, headerKey_block line line' origin origin' head reduced reduced']
    exact ih.cons _
  | swap a b as => exact (List.Perm.swap b a as).map _
  | trans _ _ ih ih' => exact ih.trans ih'

/-- The siblings of a key are alike. -/
theorem under_alike (k : Kind × Text) (h : Alike as bs) : Alike (under k as) (under k bs) := by
  -- A node and its counterpart have one key, so both are under `k` or neither is.
  induction h with
  | nil => exact .nil
  | rule line line' origin origin' selectors ds _ ih =>
    by_cases hk : (Node.rule line origin selectors ds).headerKey = k
    · rw [under_cons_of_eq hk, under_cons_of_eq (n := .rule line' origin' selectors ds) hk]
      exact .rule _ _ _ _ _ _ ih
    · rw [under_cons_of_ne hk, under_cons_of_ne (n := .rule line' origin' selectors ds) hk]
      exact ih
  | importStatement line line' origin origin' statement _ ih =>
    by_cases hk : (Node.importStatement line origin statement).headerKey = k
    · rw [under_cons_of_eq hk, under_cons_of_eq (n := .importStatement line' origin' statement) hk]
      exact .importStatement _ _ _ _ _ ih
    · rw [under_cons_of_ne hk, under_cons_of_ne (n := .importStatement line' origin' statement) hk]
      exact ih
  | @block _ _ children children' line line' origin origin' head reduced reduced' hchildren _ _ ih =>
    have hsame := headerKey_block line line' origin origin' head reduced reduced' children children'
    by_cases hk : (Node.block line origin head reduced children).headerKey = k
    · rw [under_cons_of_eq hk, under_cons_of_eq (hsame ▸ hk)]
      exact .block _ _ _ _ _ _ _ hchildren ih
    · rw [under_cons_of_ne hk, under_cons_of_ne (hsame ▸ hk)]
      exact ih
  | swap a b as => exact of_perm ((List.Perm.swap b a as).filter _)
  | trans _ _ ih ih' => exact .trans ih ih'

/-- So do the declarations of all rules. -/
theorem flatMap_declarations (h : Alike as bs) :
    (as.flatMap declarations).Perm (bs.flatMap declarations) := by
  induction h with
  | nil => exact .nil
  | rule _ _ _ _ _ ds _ ih => exact ih.append_left ds
  | importStatement _ _ _ _ _ _ ih => exact ih
  | block _ _ _ _ _ _ _ _ _ _ ih => exact ih
  | swap a b as => exact (List.Perm.swap b a as).flatMap_right _
  | trans _ _ ih ih' => exact ih.trans ih'

/-- What alike siblings hold is alike. -/
theorem flatMap_children (h : Alike as bs) : Alike (as.flatMap children) (bs.flatMap children) := by
  induction h with
  | nil => exact .nil
  | rule _ _ _ _ _ _ _ ih => exact ih
  | importStatement _ _ _ _ _ _ ih => exact ih
  | block _ _ _ _ _ _ _ hchildren _ _ ih => exact append hchildren ih
  | swap a b as => exact of_perm ((List.Perm.swap b a as).flatMap_right _)
  | trans _ _ ih ih' => exact .trans ih ih'

/-- Words of one sort stay so in alike siblings. -/
theorem within {P : Word → Prop} (h : Alike as bs) (has : ∀ n ∈ as, n.Within P) :
    ∀ n ∈ bs, n.Within P := by
  induction h with
  | nil => exact has
  | rule _ _ _ _ _ _ _ ih =>
    obtain ⟨hn, has⟩ := List.forall_mem_cons.mp has
    exact List.forall_mem_cons.mpr ⟨within_rule_iff.mpr (within_rule_iff.mp hn), ih has⟩
  | importStatement _ _ _ _ _ _ ih =>
    obtain ⟨hn, has⟩ := List.forall_mem_cons.mp has
    exact List.forall_mem_cons.mpr
      ⟨within_importStatement_iff.mpr (within_importStatement_iff.mp hn), ih has⟩
  | block _ _ _ _ _ _ _ _ _ ihchildren ih =>
    obtain ⟨hn, has⟩ := List.forall_mem_cons.mp has
    obtain ⟨hhead, hchildren⟩ := within_block_iff.mp hn
    exact List.forall_mem_cons.mpr ⟨within_block_iff.mpr ⟨hhead, ihchildren hchildren⟩, ih has⟩
  | swap a b as => exact fun n hn => has n ((List.Perm.swap a b as).mem_iff.mp hn)
  | trans _ _ ih ih' => exact ih' (ih has)

end Alike

/-- What a reordered tree holds is alike. -/
theorem Node.Reordered.alike {a b : Node} (h : Reordered a b) : Alike [a] [b] := by
  induction h with
  | refl n => exact .refl [n]
  | permute h => exact .block _ _ _ _ _ _ _ (.of_perm h) .nil
  | @inside _ _ _ _ before behind _ _ _ ih =>
    exact .block _ _ _ _ _ _ _ (.append_left before (.append_right behind ih)) .nil
  | trans _ _ ih ih' => exact .trans ih ih'

end StyleFold
