import Fiss.Schemes.Dict
import Fiss.Schemes.Reach

/-! The dependency graph of `OLAP/utilities/Graph.h`: a table from vertex to the sets of its parents
    and of its children. A `Graph` carries the fact that a vertex has one entry and that the two sets
    mirror each other, so every vertex named in one of them has an entry of its own and
    `_edges.at(top)` in the searches never throws. `get_ancestors` and `get_descendants` are one
    loop over a stack; `mem_getAncestors` says what it computes, and `parentExist` is the test
    `TransferOrder` makes before it adds an edge. -/

namespace Fiss.Olap
open Relation List Dict

structure Vertex (V : Type) where
  parents : List V := []
  children : List V := []
  deriving DecidableEq, Repr

section Table
variable {V : Type} [DecidableEq V]

/-- The parents listed for `v`, none when `v` has no entry. -/
def parentsIn (edges : Dict V (Vertex V)) (v : V) : List V :=
  match edges.find v with
  | none => []
  | some x => x.parents

/-- The children listed for `v`, none when `v` has no entry. -/
def childrenIn (edges : Dict V (Vertex V)) (v : V) : List V :=
  match edges.find v with
  | none => []
  | some x => x.children

/-- The table after `add_vertex` on both ends and the two set insertions of `add_edge`. -/
def link (edges : Dict V (Vertex V)) (p t : V) : Dict V (Vertex V) :=
  (((edges.insert p {}).insert t {}).modify p fun x => { x with children := x.children.insert t }).modify
    t fun x => { x with parents := x.parents.insert p }

@[simp] theorem parentsIn_insert (edges : Dict V (Vertex V)) (v w : V) :
    parentsIn (edges.insert v {}) w = parentsIn edges w := by
  unfold parentsIn
  rw [find_insert]
  by_cases hw : w = v
  · subst hw; cases edges.find w <;> simp
  · rw [if_neg hw]

@[simp] theorem childrenIn_insert (edges : Dict V (Vertex V)) (v w : V) :
    childrenIn (edges.insert v {}) w = childrenIn edges w := by
  unfold childrenIn
  rw [find_insert]
  by_cases hw : w = v
  · subst hw; cases edges.find w <;> simp
  · rw [if_neg hw]

theorem mem_parentsIn_link (edges : Dict V (Vertex V)) (p t q v : V) :
    q ∈ parentsIn (link edges p t) v ↔ q ∈ parentsIn edges v ∨ (q = p ∧ v = t) := by
  unfold link parentsIn
  simp only [find_modify, find_insert]
  by_cases hv : v = t
  · subst hv
    by_cases hp : v = p
    · subst hp; cases edges.find v <;> simp [or_comm]
    · cases edges.find v <;> simp [hp, or_comm]
  · by_cases hp : v = p
    · subst hp; cases edges.find v <;> simp [hv]
    · simp [hv, hp]

theorem mem_childrenIn_link (edges : Dict V (Vertex V)) (p t c v : V) :
    c ∈ childrenIn (link edges p t) v ↔ c ∈ childrenIn edges v ∨ (c = t ∧ v = p) := by
  unfold link childrenIn
  simp only [find_modify, find_insert]
  by_cases hv : v = p
  · subst hv
    by_cases ht : v = t
    · subst ht; cases edges.find v <;> simp [or_comm]
    · cases edges.find v <;> simp [ht, or_comm]
  · by_cases ht : v = t
    · subst ht; cases edges.find v <;> simp [hv]
    · simp [hv, ht]

end Table

/-- `Graph<V>`: the vertex table, with parents and children kept in step. -/
structure Graph (V : Type) [DecidableEq V] where
  edges : Dict V (Vertex V)
  distinct : edges.keys.Nodup
  mirror : ∀ p t, p ∈ parentsIn edges t ↔ t ∈ childrenIn edges p

namespace Graph
variable {V : Type} [DecidableEq V] {g : Graph V}

/-- The graph without vertices. -/
def empty : Graph V where
  edges := .empty
  distinct := nodup_nil
  mirror p t := by simp [parentsIn, childrenIn]

variable (g)

def isExist (v : V) : Bool := (g.edges.find v).isSome

def addVertex (v : V) : Graph V where
  edges := g.edges.insert v {}
  distinct := nodup_keys_insert g.distinct v {}
  mirror p t := by rw [parentsIn_insert, childrenIn_insert]; exact g.mirror p t

/-- `add_edge`: both ends are created when missing. -/
def addEdge (p t : V) : Graph V where
  edges := link g.edges p t
  distinct := by
    rw [link, keys_modify, keys_modify]
    exact nodup_keys_insert (nodup_keys_insert g.distinct p {}) t {}
  mirror q v := by
    rw [mem_parentsIn_link, mem_childrenIn_link, g.mirror q v]
    constructor <;> rintro (h | ⟨rfl, rfl⟩) <;> simp_all

def getParents (v : V) : List V := parentsIn g.edges v

def getChildren (v : V) : List V := childrenIn g.edges v

/-- The vertices of `getGraph()`. -/
def vertices : List V := g.edges.keys

/-- The loop shared by `get_ancestors` and `get_descendants`, upwards or downwards. -/
def closure (next : V → List V) (v : V) : List V :=
  if g.isExist v then search next (work next g.vertices []) (next v) [v] [] else []

def getAncestors (v : V) : List V := g.closure g.getParents v

def getDescendants (v : V) : List V := g.closure g.getChildren v

/-- `parentExist(from, to)`: whether `from` is an ancestor of `to`. -/
def parentExist (src dst : V) : Bool := src ∈ g.getAncestors dst

/-- There is an edge from `p` to `t`. -/
def Edge (p t : V) : Prop := p ∈ g.getParents t

variable {g}

instance (g : Graph V) (p t : V) : Decidable (g.Edge p t) :=
  inferInstanceAs (Decidable (p ∈ g.getParents t))

theorem mem_vertices {v : V} : v ∈ g.vertices ↔ g.isExist v = true := mem_keys

theorem isExist_of_edge_right {p t : V} (h : g.Edge p t) : g.isExist t = true := by
  unfold Edge getParents parentsIn at h
  unfold isExist
  cases hf : g.edges.find t with
  | none => rw [hf] at h; simp at h
  | some x => rfl

theorem isExist_of_edge_left {p t : V} (h : g.Edge p t) : g.isExist p = true := by
  have hc : t ∈ childrenIn g.edges p := (g.mirror p t).mp h
  unfold childrenIn at hc
  unfold isExist
  cases hf : g.edges.find p with
  | none => rw [hf] at hc; simp at hc
  | some x => rfl

theorem mem_getChildren {p t : V} : t ∈ g.getChildren p ↔ g.Edge p t :=
  (g.mirror p t).symm

/-! ### What the two insertions do -/

@[simp] theorem edge_addVertex (g : Graph V) (v p t : V) : (g.addVertex v).Edge p t ↔ g.Edge p t := by
  unfold Edge getParents addVertex
  rw [parentsIn_insert]

@[simp] theorem isExist_addVertex (g : Graph V) (v w : V) :
    (g.addVertex v).isExist w = true ↔ g.isExist w = true ∨ w = v := by
  unfold isExist addVertex
  rw [find_insert]
  by_cases hw : w = v <;> simp [hw]

@[simp] theorem edge_addEdge (g : Graph V) (p t q v : V) :
    (g.addEdge p t).Edge q v ↔ g.Edge q v ∨ (q = p ∧ v = t) :=
  mem_parentsIn_link g.edges p t q v

@[simp] theorem isExist_addEdge (g : Graph V) (p t w : V) :
    (g.addEdge p t).isExist w = true ↔ g.isExist w = true ∨ w = p ∨ w = t := by
  unfold isExist addEdge link
  simp only [find_modify, find_insert]
  by_cases ht : w = t
  · subst ht
    by_cases hp : w = p
    · subst hp; simp
    · simp [hp]
  · by_cases hp : w = p
    · subst hp; simp [ht]
    · simp [ht, hp]

/-! ### What the searches compute -/

theorem mem_closure {next : V → List V} {v a : V}
    (hnext : ∀ x y, y ∈ next x → g.isExist x = true ∧ g.isExist y = true) :
    a ∈ g.closure next v ↔ TransGen (fun x y => y ∈ next x) v a ∧ a ≠ v := by
  unfold closure
  by_cases hv : g.isExist v = true
  · rw [if_pos hv]
    exact mem_search (fun x _ y hy => mem_vertices.mpr (hnext x y hy).2) (mem_vertices.mpr hv)
  · rw [if_neg hv]
    constructor
    · intro h; simp at h
    · rintro ⟨h, -⟩
      obtain ⟨y, hy, -⟩ := TransGen.head'_iff.mp h
      exact absurd (hnext v y hy).1 hv

theorem mem_getAncestors {v a : V} : a ∈ g.getAncestors v ↔ TransGen g.Edge a v ∧ a ≠ v := by
  rw [getAncestors, mem_closure fun x y h => ⟨isExist_of_edge_right h, isExist_of_edge_left h⟩]
  exact and_congr_left' transGen_swap

theorem mem_getDescendants {v a : V} : a ∈ g.getDescendants v ↔ TransGen g.Edge v a ∧ a ≠ v := by
  rw [getDescendants, mem_closure fun x y h => ⟨isExist_of_edge_left (mem_getChildren.mp h),
    isExist_of_edge_right (mem_getChildren.mp h)⟩]
  have hrel : (fun x y => y ∈ g.getChildren x) = g.Edge := by
    funext x y; exact propext mem_getChildren
  rw [hrel]

theorem parentExist_iff {src dst : V} :
    g.parentExist src dst = true ↔ TransGen g.Edge src dst ∧ src ≠ dst := by
  rw [parentExist, decide_eq_true_iff, mem_getAncestors]

/-! ### Graphs built by any calls -/

/-- `union_`: the vertices of another graph, each with the edges to its children. -/
def union (g that : Graph V) : Graph V :=
  that.edges.entries.foldl (fun g e =>
    e.2.children.foldl (fun g c => g.addEdge e.1 c) (g.addVertex e.1)) g

/-- The calls that change a graph. -/
inductive Op (V : Type) [DecidableEq V]
  | addVertex (v : V)
  | addEdge (p t : V)
  | union (that : Graph V)

def Op.apply (g : Graph V) : Op V → Graph V
  | .addVertex v => g.addVertex v
  | .addEdge p t => g.addEdge p t
  | .union that => g.union that

/-- The call adds an edge from `p` to `t`. -/
def Op.Adds (p t : V) : Op V → Prop
  | .addVertex _ => False
  | .addEdge q u => p = q ∧ t = u
  | .union that => that.Edge p t

def build (ops : List (Op V)) : Graph V := ops.foldl Op.apply empty

theorem edge_foldl_addEdge (q : V) (cs : List V) (g : Graph V) (p t : V) :
    (cs.foldl (fun g c => g.addEdge q c) g).Edge p t ↔ g.Edge p t ∨ p = q ∧ t ∈ cs := by
  induction cs generalizing g with
  | nil => simp
  | cons c cs ih => rw [foldl_cons, ih, edge_addEdge, mem_cons, or_assoc, and_or_left]

theorem edge_union (g that : Graph V) (p t : V) :
    (g.union that).Edge p t ↔ g.Edge p t ∨ that.Edge p t := by
  have hfold (es : List (V × Vertex V)) (g : Graph V) : (es.foldl (fun g e =>
      e.2.children.foldl (fun g c => g.addEdge e.1 c) (g.addVertex e.1)) g).Edge p t ↔
        g.Edge p t ∨ ∃ e ∈ es, p = e.1 ∧ t ∈ e.2.children := by
    induction es generalizing g with
    | nil => simp
    | cons e es ih => simp [ih, edge_foldl_addEdge, or_assoc]
  rw [union, hfold]
  refine or_congr_right (Iff.trans ?_ mem_getChildren)
  rw [getChildren, childrenIn]
  constructor
  · rintro ⟨e, he, rfl, ht⟩
    rw [find_of_mem_entries that.distinct he]
    exact ht
  · intro ht
    cases hp : that.edges.find p with
    | none => simp [hp] at ht
    | some x => exact ⟨(p, x), mem_entries_of_find hp, rfl, by simpa [hp] using ht⟩

theorem edge_build (ops : List (Op V)) (p t : V) :
    (build ops).Edge p t ↔ ∃ op ∈ ops, op.Adds p t := by
  induction ops using reverseRecOn with
  | nil => simp [build, empty, Edge, getParents, parentsIn]
  | append_singleton ops op ih =>
    have hop : (op.apply (build ops)).Edge p t ↔ (build ops).Edge p t ∨ op.Adds p t := by
      cases op with
      | addVertex v => simp [Op.apply, Op.Adds]
      | addEdge q u => exact edge_addEdge (build ops) q u p t
      | union that => exact edge_union (build ops) that p t
    rw [build, foldl_append, foldl_cons, foldl_nil, ← build, hop, ih]
    simp [or_and_right, exists_or]

/-- The loop of the two searches with its lookups `_edges.at`. -/
def closureAt (g : Graph V) (next : Vertex V → List V) (v : V) : Option (List V) :=
  match g.edges.find v with
  | none => some []
  | some x =>
    searchAt (fun w => (g.edges.find w).map next)
      (work (fun w => ((g.edges.find w).map next).getD []) g.vertices []) (next x) [v] []

theorem closureAt_eq {next : Vertex V → List V}
    (hnext : ∀ v x, g.edges.find v = some x → ∀ y ∈ next x, g.isExist y = true) (v : V) :
    g.closureAt next v = some (g.closure (fun w => ((g.edges.find w).map next).getD []) v) := by
  rw [closureAt, closure, isExist]
  cases hv : g.edges.find v with
  | none => rfl
  | some x =>
    have hnodes : ∀ a ∈ g.vertices, ∃ l, (g.edges.find a).map next = some l ∧
        ∀ b ∈ l, b ∈ g.vertices := by
      intro a ha
      obtain ⟨y, hy⟩ := Option.isSome_iff_exists.mp (mem_vertices.mp ha)
      exact ⟨next y, by rw [hy, Option.map_some], fun b hb => mem_vertices.mpr (hnext a y hy b hb)⟩
    have hvmem : v ∈ g.vertices := mem_vertices.mpr (by rw [isExist, hv, Option.isSome_some])
    have hwork := work_visit (fun w => ((g.edges.find w).map next).getD []) hvmem
      (not_mem_nil (a := v))
    rw [Option.isSome_some, if_pos rfl]
    simp only [hv, Option.map_some, Option.getD_some] at hwork ⊢
    exact searchAt_eq hnodes _ _ _ _ (fun b hb => mem_vertices.mpr (hnext v x hv b hb)) (by omega)

theorem ancestorsAt_eq (g : Graph V) (v : V) :
    g.closureAt Vertex.parents v = some (g.getAncestors v) := by
  have hparents : (fun w => ((g.edges.find w).map Vertex.parents).getD []) = g.getParents := by
    funext w
    cases h : g.edges.find w <;> simp [getParents, parentsIn, h]
  rw [closureAt_eq, hparents, getAncestors]
  intro w x hw y hy
  exact isExist_of_edge_left (g := g) (t := w) (by simpa [Edge, getParents, parentsIn, hw] using hy)

theorem descendantsAt_eq (g : Graph V) (v : V) :
    g.closureAt Vertex.children v = some (g.getDescendants v) := by
  have hchildren : (fun w => ((g.edges.find w).map Vertex.children).getD []) = g.getChildren := by
    funext w
    cases h : g.edges.find w <;> simp [getChildren, childrenIn, h]
  rw [closureAt_eq, hchildren, getDescendants]
  intro w x hw y hy
  refine isExist_of_edge_right (g := g) (p := w) (mem_getChildren.mp ?_)
  simpa [getChildren, childrenIn, hw] using hy

/-- After any calls the searches come to an end without a failed lookup and return what the edges
    added so far lead to, the start excepted. -/
theorem reachability_exact (ops : List (Op V)) (v : V) :
    (∀ p t, (build ops).Edge p t ↔ ∃ op ∈ ops, op.Adds p t) ∧
      (build ops).closureAt Vertex.parents v = some ((build ops).getAncestors v) ∧
      (build ops).closureAt Vertex.children v = some ((build ops).getDescendants v) ∧
      (∀ a, a ∈ (build ops).getAncestors v ↔ TransGen (build ops).Edge a v ∧ a ≠ v) ∧
      (∀ a, a ∈ (build ops).getDescendants v ↔ TransGen (build ops).Edge v a ∧ a ≠ v) ∧
      ∀ u, u ≠ v → (u ∈ (build ops).getAncestors v ↔ v ∈ (build ops).getDescendants u) := by
  refine ⟨edge_build ops, ancestorsAt_eq _ v, descendantsAt_eq _ v, fun a => mem_getAncestors,
    fun a => mem_getDescendants, fun u hu => ?_⟩
  rw [mem_getAncestors, mem_getDescendants]
  exact and_congr_right fun _ => iff_of_true hu hu.symm

end Graph

end Fiss.Olap
