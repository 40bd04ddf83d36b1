import Mathlib.Data.Set.Function

/-! Binary trees whose nodes each know their neighbours only: the node above, up
to two nodes below, and which of the two a node is for the one above. -/
namespace NcclCore.Lib
open Option
variable {V W : Type}

structure TreeNode (V : Type) where
  u : Option V
  d0 : Option V
  d1 : Option V
  parentChildType : Option (Fin 2)
  deriving DecidableEq

namespace TreeNode

def down (node : TreeNode V) : Fin 2 → Option V
  | 0 => node.d0
  | 1 => node.d1

def HasChild (node : TreeNode V) : Prop := ∃ i, (node.down i).isSome

def map (f : V → W) (node : TreeNode V) : TreeNode W :=
  ⟨node.u.map f, node.d0.map f, node.d1.map f, node.parentChildType⟩

theorem map_down (f : V → W) (node : TreeNode V) (i : Fin 2) : (node.map f).down i = (node.down i).map f := by
  unfold down map
  split <;> rfl

theorem hasChild_map (f : V → W) (node : TreeNode V) : (node.map f).HasChild ↔ node.HasChild := by
  simp [HasChild, map_down]

end TreeNode

/-- The nodes agree on one tree over a set of nodes. -/
structure SpanningTree (nodes : Set V) (tree : V → TreeNode V) : Prop where
  root : ∃! r, r ∈ nodes ∧ (tree r).u = none
  listed : ∀ v ∈ nodes, ∀ p, (tree v).u = some p →
    p ∈ nodes ∧ ∃ i, (tree v).parentChildType = some i ∧ (tree p).down i = some v
  named : ∀ v ∈ nodes, ∀ i c, (tree v).down i = some c →
    c ∈ nodes ∧ (tree c).u = some v ∧ (tree c).parentChildType = some i
  rooted : ∀ v ∈ nodes, ∃ r ∈ nodes, (tree r).u = none ∧ Relation.ReflTransGen (fun a b => (tree a).u = some b) v r

/-- Going up ends at a root if it increases a bounded rank of the nodes. -/
theorem exists_root_of_rank {nodes : Set V} {tree : V → TreeNode V} (rank : V → Nat) (bound : Nat)
    (up : ∀ v ∈ nodes, ∀ p, (tree v).u = some p → p ∈ nodes ∧ rank v < bound ∧ rank v < rank p) {v : V}
    (member : v ∈ nodes) :
    ∃ r ∈ nodes, (tree r).u = none ∧ Relation.ReflTransGen (fun a b => (tree a).u = some b) v r := by
  -- on what is left below the bound
  induction left : bound - rank v using Nat.strong_induction_on generalizing v with
  | _ left ih =>
    cases parent : (tree v).u with
    | none => exact ⟨v, member, parent, .refl⟩
    | some p =>
      obtain ⟨inside, below, above⟩ := up v member p parent
      obtain ⟨r, finish, root, path⟩ := ih (bound - rank p) (by omega) inside rfl
      exact ⟨r, finish, root, .head parent path⟩

/-- Other names for the nodes of a tree. -/
theorem SpanningTree.relabel (spanning : SpanningTree nodes tree) (names : Set.MapsTo name nodes nodes')
    (back : Set.MapsTo node nodes' nodes) (inverse : Set.InvOn name node nodes' nodes) :
    SpanningTree nodes' fun w => (tree (node w)).map name := by
  obtain ⟨nameNode, nodeName⟩ := inverse
  constructor
  · obtain ⟨r, ⟨member, top⟩, unique⟩ := spanning.root
    refine ⟨name r, ⟨names member, ?_⟩, ?_⟩
    · simp [TreeNode.map, nodeName member, top]
    · rintro w ⟨member', top'⟩
      rw [← unique (node w) ⟨back member', map_eq_none_iff.mp top'⟩, nameNode member']
  · intro w member q parent
    obtain ⟨p, above, rfl⟩ := map_eq_some_iff.mp parent
    obtain ⟨inside, i, type, child⟩ := spanning.listed _ (back member) p above
    refine ⟨names inside, i, type, ?_⟩
    rw [TreeNode.map_down, nodeName inside, child, map_some, nameNode member]
  · intro w member i q child
    rw [TreeNode.map_down, map_eq_some_iff] at child
    obtain ⟨c, child, rfl⟩ := child
    obtain ⟨inside, parent, type⟩ := spanning.named _ (back member) i c child
    refine ⟨names inside, ?_, ?_⟩
    · simp [TreeNode.map, nodeName inside, parent, nameNode member]
    · simp [TreeNode.map, nodeName inside, type]
  · intro w member
    obtain ⟨r, finish, top, path⟩ := spanning.rooted _ (back member)
    have renamed : ∀ v ∈ nodes, Relation.ReflTransGen (fun a b => (tree a).u = some b) v r →
        Relation.ReflTransGen (fun a b => ((tree (node a)).map name).u = some b) (name v) (name r) := by
      intro v start path
      induction path using Relation.ReflTransGen.head_induction_on with
      | refl => exact .refl
      | head parent _ ih =>
        refine .head ?_ (ih (spanning.listed _ start _ parent).1)
        simp [TreeNode.map, nodeName start, parent]
    have path' := renamed _ (back member) path
    rw [nameNode member] at path'
    refine ⟨name r, names finish, ?_, path'⟩
    simp [TreeNode.map, nodeName finish, top]

end NcclCore.Lib
