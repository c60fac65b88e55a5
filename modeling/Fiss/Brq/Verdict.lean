import Fiss.Brq.Phases

/-! The checks of the pre-accept replies, which keep their results from one reply to the next, and the
    graph that is chosen from them. -/

namespace Fiss.Brq.Coordinator
open Fiss.Rcc List OrdSet Nat

/-! ### Quorums -/

/-- What `FastQuorumGraphCheck` finds in the graphs of a partition with `n` replicas. -/
def verdict (n t : ℕ) (graphs : List Graph) : GraphCheck :=
  if graphs.length < n then .few
  else if ∀ g ∈ graphs, ∀ g' ∈ graphs, parentsOf g t = parentsOf g' t then .same else .differ

/-- The graphs of a partition can be checked: there are not too many and each has the vertex, and a
    result kept from before is the right one. -/
structure Checkable (L : Layout) (c : Coordinator) (par : ℕ) : Prop where
  length : (c.graphsOf par).length ≤ L.size par
  vertex : ∀ g ∈ c.graphsOf par, (g.find c.txnId).isSome
  cached : ∀ res, c.fastAcceptGraphCheckCaches.find par = some res →
    (c.graphsOf par).length = L.size par ∧ res = verdict (L.size par) c.txnId (c.graphsOf par)

section Quorums

variable {L : Layout} {c : Coordinator} {t n par : ℕ} {pars : List ℕ} {graphs : List Graph}

theorem verdict_few : verdict n t graphs = .few ↔ graphs.length < n := by
  rw [verdict]
  split
  · next h => exact iff_of_true rfl h
  · next h =>
    refine iff_of_false ?_ h
    split <;> exact fun h => by cases h

theorem verdict_same : verdict n t graphs = .same ↔ n ≤ graphs.length ∧
    ∀ g ∈ graphs, ∀ g' ∈ graphs, parentsOf g t = parentsOf g' t := by
  rw [verdict]
  split
  · next h => exact iff_of_false (fun h => by cases h) fun hn => absurd hn.1 (not_le.mpr h)
  · next h =>
    split
    · next hall => exact iff_of_true rfl ⟨not_lt.mp h, hall⟩
    · next hall => exact iff_of_false (fun h => by cases h) fun hn => hall hn.2

theorem compareParents_eq {parentSet : OrdSet ℕ} (h : ∀ g ∈ graphs, (g.find t).isSome) :
    compareParents t parentSet graphs =
      some (if ∀ g ∈ graphs, parentSet = parentsOf g t then .same else .differ) := by
  induction graphs with
  | nil => rfl
  | cons g graphs ih =>
    obtain ⟨hg, hgraphs⟩ := forall_mem_cons.mp h
    obtain ⟨vv, hvv⟩ := Option.isSome_iff_exists.mp hg
    have hparents : parentsOf g t = vv.parents := by rw [parentsOf, hvv, Option.elim_some]
    rw [compareParents, hvv, Option.bind_some]
    split
    · next heq =>
      rw [ih hgraphs]
      simp [hparents, heq]
    · next hne =>
      rw [if_neg fun hall => hne ((hall g mem_cons_self).trans hparents)]

theorem agree_cons {g : Graph} :
    (∀ g1 ∈ g :: graphs, ∀ g2 ∈ g :: graphs, parentsOf g1 t = parentsOf g2 t) ↔
      ∀ g' ∈ graphs, parentsOf g t = parentsOf g' t := by
  constructor
  · exact fun h g' hg' => h g mem_cons_self g' (mem_cons_of_mem g hg')
  · intro h
    have hfirst : ∀ g' ∈ g :: graphs, parentsOf g t = parentsOf g' t :=
      forall_mem_cons.mpr ⟨rfl, h⟩
    exact fun g1 h1 g2 h2 => (hfirst g1 h1).symm.trans (hfirst g2 h2)

theorem fastQuorumGraphCheck_eq (h : Checkable L c par) : ∃ caches, c.fastQuorumGraphCheck L par =
      some (verdict (L.size par) c.txnId (c.graphsOf par), c.setCaches caches) ∧
    ∀ p, Checkable L c p → Checkable L (c.setCaches caches) p := by
  rw [fastQuorumGraphCheck, Layout.getFastQuorum]
  split
  · next hlt =>
    rw [verdict_few.mpr hlt]
    exact ⟨c.fastAcceptGraphCheckCaches, rfl, fun p hp => hp⟩
  · next hge =>
    split
    · next res hres =>
      rw [← (h.cached res hres).2]
      exact ⟨c.fastAcceptGraphCheckCaches, rfl, fun p hp => hp⟩
    · have hlen : (c.graphsOf par).length = L.size par := le_antisymm h.length (not_lt.mp hge)
      rw [if_pos hlen]
      split
      · next hnil =>
        rw [hnil] at hlen
        exact absurd hlen (L.size_pos par).ne
      · next g graphs hcons =>
        obtain ⟨v, hv⟩ := Option.isSome_iff_exists.mp (h.vertex g (hcons ▸ mem_cons_self))
        have hparents : parentsOf g c.txnId = v.parents := by rw [parentsOf, hv, Option.elim_some]
        have hverdict : verdict (L.size par) c.txnId (c.graphsOf par) =
            if ∀ g' ∈ graphs, v.parents = parentsOf g' c.txnId then .same else .differ := by
          rw [verdict, if_neg hge, hcons, ← hparents]
          exact if_congr agree_cons rfl rfl
        rw [hv, Option.bind_some, compareParents_eq fun g' hg' =>
          h.vertex g' (hcons ▸ mem_cons_of_mem g hg'), Option.map_some, ← hverdict]
        refine ⟨_, rfl, fun p hp => ⟨hp.length, hp.vertex, fun res hres => ?_⟩⟩
        rw [setCaches, Dict.find_set] at hres
        split at hres
        · next heq =>
          subst heq
          exact ⟨hlen, (Option.some.inj hres).symm⟩
        · exact hp.cached res hres

theorem fastpathPossible_eq (h : ∀ par ∈ pars, Checkable L c par) : ∃ caches,
    fastpathPossible L pars c =
      some (decide (∀ par ∈ pars, verdict (L.size par) c.txnId (c.graphsOf par) ≠ .differ),
        c.setCaches caches) ∧ ∀ p, Checkable L c p → Checkable L (c.setCaches caches) p := by
  induction pars generalizing c with
  | nil => exact ⟨c.fastAcceptGraphCheckCaches, rfl, fun p hp => hp⟩
  | cons par pars ih =>
    obtain ⟨hpar, hpars⟩ := forall_mem_cons.mp h
    obtain ⟨caches, hcheck, hkeep⟩ := fastQuorumGraphCheck_eq hpar
    obtain ⟨caches', hrest, hkeep'⟩ := ih fun p hp => hkeep p (hpars p hp)
    refine ⟨caches', ?_, fun p hp => hkeep' p (hkeep p hp)⟩
    rw [fastpathPossible, hcheck, Option.bind_some, hrest, Option.map_some]
    simp only [forall_mem_cons, Bool.decide_and]
    rfl

theorem allFastQuorumsReached_eq (h : ∀ par ∈ pars, Checkable L c par) : ∃ caches,
    allFastQuorumsReached L pars c =
      some (decide (∀ par ∈ pars, verdict (L.size par) c.txnId (c.graphsOf par) = .same),
        c.setCaches caches) ∧ ∀ p, Checkable L c p → Checkable L (c.setCaches caches) p := by
  induction pars generalizing c with
  | nil => exact ⟨c.fastAcceptGraphCheckCaches, rfl, fun p hp => hp⟩
  | cons par pars ih =>
    obtain ⟨hpar, hpars⟩ := forall_mem_cons.mp h
    obtain ⟨caches, hcheck, hkeep⟩ := fastQuorumGraphCheck_eq hpar
    rw [allFastQuorumsReached, hcheck, Option.bind_some]
    split
    · next hsame =>
      obtain ⟨caches', hrest, hkeep'⟩ := ih fun p hp => hkeep p (hpars p hp)
      refine ⟨caches', ?_, fun p hp => hkeep' p (hkeep p hp)⟩
      replace hsame : verdict (L.size par) c.txnId (c.graphsOf par) = .same := hsame
      rw [hrest]
      simp only [forall_mem_cons, hsame, true_and]
      rfl
    · next hne =>
      refine ⟨caches, ?_, hkeep⟩
      rw [decide_eq_false fun hall => hne (hall par mem_cons_self)]

end Quorums

/-! ### Choosing the graph -/

section

variable {L : Layout} {c : Coordinator} {t : ℕ} {graphs : List Graph}

theorem partition_aggregate (d : RccDTxn) (v : Vertex) :
    (d.aggregate v).partition = d.partition.union v.partition := by
  rw [RccDTxn.aggregate]
  simp only
  split_ifs <;> rfl

theorem foldl_aggregate_partition (h : ∀ g ∈ graphs, (g.find t).isSome) {g0 : Dtxns} {d : RccDTxn}
    (hd : g0.find t = some d) : ∃ d', (graphs.foldl (aggregate copyV) g0).find t = some d' ∧
      ∀ q, q ∈ d'.partition ↔
        q ∈ d.partition ∨ ∃ g ∈ graphs, ∃ v, g.find t = some v ∧ q ∈ v.partition := by
  induction graphs generalizing g0 d with
  | nil => exact ⟨d, hd, fun q => by simp⟩
  | cons g graphs ih =>
    obtain ⟨hg, hgraphs⟩ := forall_mem_cons.mp h
    obtain ⟨v, hv⟩ := Option.isSome_iff_exists.mp hg
    have hnext : (aggregate copyV g0 g).find t = some (d.aggregate v) := by
      rw [find_aggregate_of_some hv, hd, Option.getD_some]
    obtain ⟨d', hd', hmem⟩ := ih hgraphs hnext
    refine ⟨d', hd', fun q => ?_⟩
    rw [hmem q, partition_aggregate, mem_union, or_assoc]
    simp [hv]

/-- `ChooseGraph` makes all partitions of the attempt known, where every partition has replied. -/
theorem choose_partitions {d : RccDTxn} (hd : c.graph.find c.txnId = some d)
    (hempty : d.partition = ∅)
    (hreply : ∀ par, ∀ g ∈ c.graphsOf par, ∃ v, g.find c.txnId = some v ∧ par ∈ v.partition ∧
      ∀ q ∈ v.partition, q ∈ L.touched c.txnId)
    (hall : ∀ par ∈ L.touched c.txnId, c.graphsOf par ≠ []) :
    ∃ d', c.choose.graph.find c.txnId = some d' ∧ d'.partition = L.touched c.txnId := by
  have hchosen : ∀ g ∈ c.toBrqCoord.chosen, ∃ par, g ∈ c.graphsOf par := by
    intro g hg
    obtain ⟨par, -, hg⟩ := mem_flatMap.mp hg
    refine ⟨par, ?_⟩
    split at hg
    · exact mem_of_mem_take hg
    · exact hg
  have hfirst : ∀ par ∈ L.touched c.txnId, ∃ g ∈ c.toBrqCoord.chosen, g ∈ c.graphsOf par := by
    intro par hpar
    obtain ⟨g, graphs, hcons⟩ := exists_cons_of_ne_nil (hall par hpar)
    have hkey : par ∈ c.toBrqCoord.partitions := by
      refine mem_foldl_insert.mpr (.inr (Dict.mem_keys.mpr ?_))
      cases hfind : c.nFastAcceptGraphs.find par with
      | some _ => rfl
      | none =>
        rw [graphsOf, hfind] at hcons
        cases hcons
    refine ⟨g, mem_flatMap.mpr ⟨par, hkey, ?_⟩, hcons ▸ mem_cons_self⟩
    rw [show (c.nFastAcceptGraphs.find par).getD [] = g :: graphs from hcons]
    split <;> exact mem_cons_self
  have hvertex : ∀ g ∈ c.toBrqCoord.chosen, (g.find c.txnId).isSome := by
    intro g hg
    obtain ⟨par, hg⟩ := hchosen g hg
    obtain ⟨v, hv, -⟩ := hreply par g hg
    rw [hv]
    rfl
  obtain ⟨d', hd', hmem⟩ := foldl_aggregate_partition hvertex hd
  refine ⟨d', hd', ext fun q => ?_⟩
  rw [hmem q, hempty]
  constructor
  · rintro (hq | ⟨g, hg, v, hv, hq⟩)
    · exact absurd hq (notMem_empty q)
    · obtain ⟨par, hg⟩ := hchosen g hg
      obtain ⟨v', hv', -, hsub⟩ := hreply par g hg
      obtain rfl := Option.some.inj (hv.symm.trans hv')
      exact hsub q hq
  · intro hq
    obtain ⟨g, hg, hin⟩ := hfirst q hq
    obtain ⟨v, hv, hown, -⟩ := hreply q g hin
    exact .inr ⟨g, hg, v, hv, hown⟩

theorem partitionsKnown_of {d : RccDTxn} (hpars : c.partitionIds = L.touched c.txnId)
    (hd : c.graph.find c.txnId = some d) (hall : d.partition = L.touched c.txnId) :
    c.partitionsKnown = true := by
  rw [partitionsKnown, hd, Option.any_some, hpars, hall]
  exact decide_eq_true rfl

end

end Fiss.Brq.Coordinator
