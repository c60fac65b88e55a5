import Fiss.Rcc.Graph

/-! The coordinator of a transaction between the pre-accept replies and the accept message: every
    reply is filed under its partition in the order of arrival, and `ChooseGraph` takes the filed
    graphs into the coordinator's own, partition by partition in ascending order. -/

namespace Fiss.Brq
open Fiss.Rcc List Prod OrdSet Dict

/-- The coordinator of one transaction. -/
structure BrqCoord where
  graph : Dtxns := {}
  nFastAcceptGraphs : Dict ℕ (List Graph) := {}
  fastPath : Bool := false

/-- A pre-accept reply: the partition it comes from and its graph. -/
abbrev Reply := ℕ × Graph

namespace BrqCoord

/-- `PreAccept` for transaction `t`: the graph gets its vertex. -/
def preAccept (c : BrqCoord) (t : ℕ) : BrqCoord := { c with graph := c.graph.insert t {} }

/-- What `PreAcceptAck` does with a reply: `n_fast_accept_graphs_[par_id].push_back(graph)`. -/
def preAcceptAck (c : BrqCoord) (r : Reply) : BrqCoord :=
  { c with nFastAcceptGraphs :=
      (c.nFastAcceptGraphs.insert r.1 []).modify r.1 fun graphs => graphs ++ [r.2] }

/-- The partitions that have replied. -/
def partitions (c : BrqCoord) : OrdSet ℕ := c.nFastAcceptGraphs.keys.foldl insert ∅

/-- The graphs `ChooseGraph` goes through, in its order. -/
def chosen (c : BrqCoord) : List Graph :=
  c.partitions.elems.flatMap fun par =>
    let vecGraph := (c.nFastAcceptGraphs.find par).getD []
    if c.fastPath then vecGraph.take 1 else vecGraph

def chooseGraph (c : BrqCoord) : BrqCoord :=
  { c with graph := c.chosen.foldl (aggregate copyV) c.graph }

end BrqCoord

/-- The parents a graph message lists for `t`. -/
def parentsOf (graph : Graph) (t : ℕ) : OrdSet ℕ := (graph.find t).elim ∅ fun v => v.parents

/-- The coordinator of `t` after the replies. -/
def filed (t : ℕ) (replies : List Reply) : BrqCoord :=
  replies.foldl BrqCoord.preAcceptAck (BrqCoord.preAccept {} t)

/-- The parents of `t` in the coordinator's graph when the slow path has chosen it. -/
def slowParents (t : ℕ) (replies : List Reply) : OrdSet ℕ :=
  ((filed t replies).chooseGraph.graph.find t).elim ∅ fun d => d.parents

/-- The last reply to arrive from the largest partition. -/
def lastReply (replies : List Reply) : Option Reply :=
  (replies.filter fun r => replies.all fun r' => r'.1 ≤ r.1).getLast?

/-- The reply's vertex for `t` is pre-accepted. -/
def PreAccepted (t : ℕ) (r : Reply) : Prop := ∃ v, r.2.find t = some v ∧ v.status = txnPac

variable {t : ℕ} {replies : List Reply}

/-! ### Filing the replies -/

theorem filed_concat (r : Reply) : filed t (replies ++ [r]) = (filed t replies).preAcceptAck r := by
  rw [filed, foldl_append]; rfl

theorem find_filed (t par : ℕ) (replies : List Reply) :
    (((filed t replies).nFastAcceptGraphs.find par).isSome ↔ ∃ r ∈ replies, r.1 = par) ∧
      ((filed t replies).nFastAcceptGraphs.find par).getD [] =
        (replies.filter fun r => r.1 = par).map snd := by
  induction replies using reverseRecOn with
  | nil => exact ⟨by simp [filed, BrqCoord.preAccept, find], rfl⟩
  | append_singleton replies r ih =>
    rw [filed_concat, BrqCoord.preAcceptAck]
    simp only [find_modify, find_insert, if_true]
    rcases eq_or_ne par r.1 with rfl | hpar
    · simp [ih.2]
    · simp [hpar, ih.1, ih.2, Ne.symm hpar]

theorem filed_frame (t : ℕ) (replies : List Reply) :
    (filed t replies).fastPath = false ∧ (filed t replies).graph = insert {} t {} := by
  induction replies using reverseRecOn with
  | nil => exact ⟨rfl, rfl⟩
  | append_singleton replies r ih => rw [filed_concat]; exact ih

theorem mem_partitions {par : ℕ} :
    par ∈ (filed t replies).partitions ↔ ∃ r ∈ replies, r.1 = par := by
  rw [BrqCoord.partitions, mem_foldl_insert, Dict.mem_keys, (find_filed t par replies).1]
  simp

theorem chosen_filed : (filed t replies).chosen =
    (filed t replies).partitions.elems.flatMap fun par =>
      (replies.filter fun r => r.1 = par).map snd := by
  rw [BrqCoord.chosen, (filed_frame t replies).1]
  exact flatMap_congr fun par _ => (find_filed t par replies).2

theorem mem_chosen {graph : Graph} :
    graph ∈ (filed t replies).chosen ↔ ∃ r ∈ replies, r.2 = graph := by
  rw [chosen_filed, mem_flatMap]
  constructor
  · rintro ⟨par, -, h⟩
    obtain ⟨r, hr, rfl⟩ := mem_map.mp h
    exact ⟨r, mem_of_mem_filter hr, rfl⟩
  · rintro ⟨r, hr, rfl⟩
    exact ⟨r.1, mem_partitions.mpr ⟨r, hr, rfl⟩,
      mem_map_of_mem (mem_filter.mpr ⟨hr, decide_eq_true rfl⟩)⟩

theorem filter_largest {m : ℕ} (hm : ∃ r ∈ replies, r.1 = m) (hle : ∀ r ∈ replies, r.1 ≤ m) :
    (replies.filter fun r => r.1 = m) =
      replies.filter fun r => replies.all fun r' => r'.1 ≤ r.1 := by
  refine filter_congr fun r hr => ?_
  rw [Bool.eq_iff_iff, decide_eq_true_iff, all_eq_true]
  constructor
  · rintro rfl r' hr'
    exact decide_eq_true (hle r' hr')
  · intro hall
    obtain ⟨r', hr', rfl⟩ := hm
    exact le_antisymm (hle r hr) (of_decide_eq_true (hall r' hr'))

theorem getLast_chosen : (filed t replies).chosen.getLast? = (lastReply replies).map snd := by
  have hsorted := (filed t replies).partitions.sorted
  rw [chosen_filed]
  rcases eq_nil_or_concat (filed t replies).partitions.elems with hnil | ⟨pars, m, hpars⟩
  · have hempty : replies = [] := eq_nil_iff_forall_not_mem.mpr fun r hr => by
      have hmem := mem_partitions (t := t).mpr ⟨r, hr, rfl⟩
      rw [← mem_elems, hnil] at hmem
      exact not_mem_nil hmem
    rw [hnil, hempty]; rfl
  · rw [concat_eq_append] at hpars
    have hm : ∃ r ∈ replies, r.1 = m := mem_partitions (t := t).mp (by
      rw [← mem_elems, hpars]; exact mem_append_right _ (mem_singleton_self m))
    have hle : ∀ r ∈ replies, r.1 ≤ m := fun r hr => by
      have hmem := mem_partitions (t := t).mpr ⟨r, hr, rfl⟩
      rw [← mem_elems, hpars] at hmem
      rw [hpars, pairwise_append] at hsorted
      rcases mem_append.mp hmem with h | h
      · exact (hsorted.2.2 r.1 h m (mem_singleton_self m)).le
      · exact (mem_singleton.mp h).le
    have hne : lastReply replies ≠ none := by
      obtain ⟨r, hr, hrm⟩ := hm
      rw [lastReply, ← filter_largest ⟨r, hr, hrm⟩ hle, Ne, getLast?_eq_none_iff]
      exact ne_nil_of_mem (mem_filter.mpr ⟨hr, decide_eq_true hrm⟩)
    rw [hpars, flatMap_append, getLast?_append, flatMap_singleton, getLast?_map,
      filter_largest hm hle, ← lastReply]
    obtain ⟨r, hr⟩ := Option.ne_none_iff_exists'.mp hne
    rw [hr]; rfl

/-! ### Choosing the graph -/

/-- The coordinator's own vertex before and between replies that are pre-accepted. -/
def Waiting (d : RccDTxn) : Prop := d.maxSeenBallot = 0 ∧ (d.status = txnUkn ∨ d.status = txnPac)

theorem aggregate_preAccepted {d : RccDTxn} {v : Vertex} (hd : Waiting d) (hv : v.status = txnPac) :
    (d.aggregate v).parents = v.parents ∧ Waiting (d.aggregate v) := by
  obtain ⟨hb, hs | hs⟩ := hd <;> simp [RccDTxn.aggregate, Waiting, hb, hs, hv, txnPac, txnStd, txnCmt,
    txnUkn]

theorem foldl_aggregate_preAccepted {graphs : List Graph} (hpac : ∀ graph ∈ graphs, ∃ v,
    graph.find t = some v ∧ v.status = txnPac) {g : Dtxns} {d : RccDTxn} (hd : g.find t = some d)
    (hw : Waiting d) : ∃ d', (graphs.foldl (aggregate copyV) g).find t = some d' ∧ Waiting d' ∧
      d'.parents = graphs.getLast?.elim d.parents fun graph => parentsOf graph t := by
  induction graphs using reverseRecOn with
  | nil => exact ⟨d, hd, hw, rfl⟩
  | append_singleton graphs graph ih =>
    obtain ⟨e, he, hew, -⟩ := ih fun graph' h => hpac graph' (mem_append_left _ h)
    obtain ⟨v, hv, hs⟩ := hpac graph (mem_append_right _ (mem_singleton_self graph))
    obtain ⟨hparents, hew'⟩ := aggregate_preAccepted hew hs
    refine ⟨e.aggregate v, ?_, hew', ?_⟩
    · rw [foldl_append, foldl_cons, foldl_nil, find_aggregate_of_some hv, he,
        Option.getD_some]
    · rw [hparents, getLast?_concat, Option.elim_some, parentsOf, hv, Option.elim_some]

theorem slowParents_eq (hpac : ∀ r ∈ replies, PreAccepted t r) :
    slowParents t replies = (lastReply replies).elim ∅ fun r => parentsOf r.2 t := by
  have hd : (filed t replies).graph.find t = some {} := by
    rw [(filed_frame t replies).2, find_insert, if_pos rfl]; rfl
  have hgraphs : ∀ graph ∈ (filed t replies).chosen, ∃ v,
      graph.find t = some v ∧ v.status = txnPac := fun graph h => by
    obtain ⟨r, hr, rfl⟩ := mem_chosen.mp h
    exact hpac r hr
  obtain ⟨d, hfind, -, hparents⟩ := foldl_aggregate_preAccepted hgraphs hd ⟨rfl, .inl rfl⟩
  rw [slowParents, BrqCoord.chooseGraph, hfind, Option.elim_some, hparents, getLast_chosen]
  cases lastReply replies <;> rfl

/-- The chosen graph has all reported parents of `t` exactly when the last reply from the largest
    partition reports them all. -/
theorem slow_path_complete_iff (hpac : ∀ r ∈ replies, PreAccepted t r) :
    (∀ r ∈ replies, ∀ p ∈ parentsOf r.2 t, p ∈ slowParents t replies) ↔
      ∀ last ∈ lastReply replies, ∀ r ∈ replies, ∀ p ∈ parentsOf r.2 t, p ∈ parentsOf last.2 t := by
  rw [slowParents_eq hpac]
  cases hlast : lastReply replies with
  | some last => simp
  | none =>
    have hnil : (filed t replies).chosen = [] := by
      rw [← getLast?_eq_none_iff, getLast_chosen, hlast, Option.map_none]
    have hno : ∀ r ∈ replies, False := fun r hr => by
      have hmem := mem_chosen (t := t).mpr ⟨r, hr, rfl⟩
      rw [hnil] at hmem
      exact not_mem_nil hmem
    exact ⟨fun _ _ h => (by cases h), fun _ r hr => (hno r hr).elim⟩

/-- Two replicas of partition 0 pre-accept transaction 1, one after 2 and one after 3. -/
def twoReplies : List Reply :=
  [(0, ⟨[(1, { status := txnPac, partition := {0}, parents := {2} }), (2, { partition := {0} })]⟩),
    (0, ⟨[(1, { status := txnPac, partition := {0}, parents := {3} }), (3, { partition := {0} })]⟩)]

theorem slow_path_complete_iff_twoReplies :
    (∀ r ∈ twoReplies, ∀ p ∈ parentsOf r.2 1, p ∈ slowParents 1 twoReplies) ↔
      ∀ last ∈ lastReply twoReplies, ∀ r ∈ twoReplies, ∀ p ∈ parentsOf r.2 1,
        p ∈ parentsOf last.2 1 := by
  refine slow_path_complete_iff fun r hr => ?_
  rcases mem_cons.mp hr with rfl | hr
  · exact ⟨_, rfl, rfl⟩
  · rw [mem_singleton.mp hr]
    exact ⟨_, rfl, rfl⟩

/-- The parent that only the first of two replies reports is lost. -/
theorem slow_path_loses_parent :
    2 ∈ parentsOf ((twoReplies.head?).elim {} snd) 1 ∧ 2 ∉ slowParents 1 twoReplies := by
  decide

end Fiss.Brq
