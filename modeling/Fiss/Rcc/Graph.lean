import Fiss.Rcc.DTxn
import Fiss.Schemes.Runs
import Fiss.Schemes.Scc

/-! The dependency graph over the records of a server: the walk that finds the component of a
    vertex, and the way a vertex of a message is taken into the graph.

    `FindSccPred` returns a component in the order in which the walk takes it off its stack. The
    members do not depend on the vertex it starts from (`mem_findSccPred`), their order does. -/

namespace Fiss.Rcc
open Relation List Option Prod Dict ReflTransGen

section

variable (g : Dtxns) (v : ℕ)

/-- The parents of `v` that `FindV` finds. -/
def parentsIn : List ℕ :=
  match g.find v with
  | none => []
  | some d => d.parents.elems.filter fun p => (g.find p).isSome

/-- `p` is a parent of `v` and both are in the graph. -/
def ParentOf (p : ℕ) : Prop := p ∈ parentsIn g v

/-- `p` is `v` or an ancestor of it. -/
def Above : ℕ → ℕ → Prop := ReflTransGen (ParentOf g)

/-! ### Components -/

/-- The component of `w` is known. -/
def hasScc (w : ℕ) : Bool := (g.find w).any fun d => d.scc.isSome

/-- The parents the walk goes on to: those in the graph whose component is not known. -/
def openParents : List ℕ := (parentsIn g v).filter fun p => !hasScc g p

/-- `StrongConnectPred` with fresh maps. -/
def strongConnectPred : List ℕ := component (openParents g) g.keys.dedup.length v

/-- Every member gets the component; none may have one. -/
def cacheScc (scc : List ℕ) : List ℕ → Dtxns → Option Dtxns
  | [], g => some g
  | v :: vs, g =>
    if hasScc g v then none else cacheScc scc vs (g.modify v fun d => d.setScc scc)

/-- `FindSccPred`: the component of `v`, and the graph with it noted at its members. -/
def findSccPred : Option (List ℕ × Dtxns) :=
  (g.find v).bind fun d =>
    match d.scc with
    | some scc => some (scc, g)
    | none => (cacheScc (strongConnectPred g v) (strongConnectPred g v) g).map fun g' =>
        (strongConnectPred g v, g')

end

variable {g : Dtxns} {u v p x : ℕ}

theorem mem_parentsIn : p ∈ parentsIn g v ↔
    (∃ d, g.find v = some d ∧ p ∈ d.parents) ∧ (g.find p).isSome := by
  unfold parentsIn
  cases hv : g.find v with
  | none => simp
  | some d => simp [mem_filter, OrdSet.mem_elems]

theorem mem_openParents : p ∈ openParents g v ↔ ParentOf g v p ∧ hasScc g p = false := by
  rw [openParents, mem_filter, Bool.not_eq_true', ParentOf]

theorem openParents_mem_keys (a : ℕ) (_ : a ∈ g.keys.dedup) (b : ℕ) (hb : b ∈ openParents g a) :
    b ∈ g.keys.dedup := by
  rw [mem_dedup, Dict.mem_keys]
  exact (mem_parentsIn.mp (mem_openParents.mp hb).1).2

theorem mem_dedup_keys {d : RccDTxn} (hv : g.find v = some d) : v ∈ g.keys.dedup := by
  rw [mem_dedup, Dict.mem_keys, hv, isSome_some]

theorem cacheScc_eq (scc : List ℕ) : ∀ {vs : List ℕ} {g : Dtxns}, vs.Nodup →
    (∀ v ∈ vs, hasScc g v = false) → ∃ g', cacheScc scc vs g = some g' ∧
      ∀ x, g'.find x = (g.find x).map fun d => if x ∈ vs then d.setScc scc else d
  | [], g, _, _ => ⟨g, rfl, fun x => by simp⟩
  | v :: vs, g, hnd, hno => by
    obtain ⟨hv, hvs⟩ := nodup_cons.mp hnd
    obtain ⟨hv0, hno⟩ := forall_mem_cons.mp hno
    have hmod : ∀ x, x ≠ v →
        (g.modify v fun d => d.setScc scc).find x = g.find x := fun x hx => by
      rw [find_modify, if_neg hx]
    obtain ⟨g', hg', hfind⟩ := cacheScc_eq scc hvs (fun x hx => by
      rw [hasScc, hmod x (by rintro rfl; exact hv hx)]; exact hno x hx)
    refine ⟨g', by rw [cacheScc, hv0, if_neg Bool.false_ne_true, hg'], fun x => ?_⟩
    rw [hfind x]
    rcases eq_or_ne x v with rfl | hx
    · rw [find_modify, if_pos rfl, Option.map_map]
      simp [hv, Function.comp_def]
    · rw [hmod x hx]
      simp [hx]

/-- Where the component of a vertex is known, it is known at all its members. -/
def CacheClosed (g : Dtxns) : Prop :=
  ∀ w x, hasScc g w = true → Above g w x → Above g x w → hasScc g x = true

theorem openPath_of_above (hcl : CacheClosed g) (hno : hasScc g v = false) (hvx : Above g v x)
    (hxv : Above g x v) : ReflTransGen (fun a b => b ∈ openParents g a) v x := by
  induction hvx with
  | refl => exact .refl
  | @tail b c hvb hbc ih =>
    have hc : hasScc g c = false := by
      by_contra hc
      rw [hcl c v (eq_true_of_ne_false hc) hxv (hvb.tail hbc)] at hno
      exact Bool.noConfusion hno
    exact (ih (hxv.head hbc)).tail (mem_openParents.mpr ⟨hbc, hc⟩)

theorem above_of_openPath (h : ReflTransGen (fun a b => b ∈ openParents g a) v x) : Above g v x :=
  ReflTransGen.mono (fun _ _ hab => (mem_openParents.mp hab).1) _ _ h

theorem mem_strongConnectPred (hcl : CacheClosed g) {d : RccDTxn} (hv : g.find v = some d)
    (hno : hasScc g v = false) : x ∈ strongConnectPred g v ↔ Above g v x ∧ Above g x v := by
  rw [strongConnectPred, mem_component openParents_mem_keys (mem_dedup_keys hv)]
  constructor
  · exact fun h => ⟨above_of_openPath h.1, above_of_openPath h.2⟩
  · rintro ⟨hvx, hxv⟩
    have hx : hasScc g x = false := by
      by_contra hx
      rw [hcl x v (eq_true_of_ne_false hx) hxv hvx] at hno
      exact Bool.noConfusion hno
    exact ⟨openPath_of_above hcl hno hvx hxv, openPath_of_above hcl hx hxv hvx⟩

theorem hasScc_of_mem_strongConnectPred {d : RccDTxn} (hv : g.find v = some d)
    (hno : hasScc g v = false) (hx : x ∈ strongConnectPred g v) : hasScc g x = false := by
  have hvx := ((mem_component openParents_mem_keys (mem_dedup_keys hv)).mp hx).1
  rcases cases_tail hvx with rfl | ⟨b, -, hbx⟩
  · exact hno
  · exact (mem_openParents.mp hbx).2

theorem findSccPred_eq {d : RccDTxn} (hv : g.find v = some d) (hno : d.scc = none) :
    ∃ g', findSccPred g v = some (strongConnectPred g v, g') ∧ ∀ x, g'.find x = (g.find x).map
      fun d => if x ∈ strongConnectPred g v then d.setScc (strongConnectPred g v) else d := by
  have hv0 : hasScc g v = false := by rw [hasScc, hv, any_some, hno]; rfl
  obtain ⟨g', hg', hfind⟩ := cacheScc_eq (strongConnectPred g v)
    (nodup_component openParents_mem_keys (mem_dedup_keys hv))
    fun x hx => hasScc_of_mem_strongConnectPred hv hv0 hx
  refine ⟨g', ?_, hfind⟩
  rw [findSccPred, hv, bind_some, hno]
  simp only [strongConnectPred] at hg' ⊢
  rw [hg', map_some]

/-! ### The order of a component -/

/-- Two servers hold the same transactions with the same parents. -/
def SameGraph (g1 g2 : Dtxns) : Prop :=
  ∀ v, (g1.find v).map (fun d => d.parents) = (g2.find v).map fun d => d.parents

/-- No component is known. -/
def Uncached (g : Dtxns) : Prop := ∀ v, hasScc g v = false

/-- The sequence in which the members of the component of `v` are executed. -/
def sccOrder (g : Dtxns) (v : ℕ) : Option (List ℕ) := (findSccPred g v).map fst

theorem sccOrder_eq (hg : Uncached g) (hv : (g.find v).isSome) :
    sccOrder g v = some (strongConnectPred g v) := by
  obtain ⟨d, hd⟩ := isSome_iff_exists.mp hv
  have hno := hg v
  rw [hasScc, hd, any_some, isSome_eq_false_iff, isNone_iff_eq_none] at hno
  obtain ⟨g', hg', -⟩ := findSccPred_eq hd hno
  rw [sccOrder, hg', map_some]

variable {g1 g2 : Dtxns}

theorem SameGraph.isSome_iff (h : SameGraph g1 g2) (v : ℕ) :
    (g1.find v).isSome = (g2.find v).isSome := by
  rw [← isSome_map, h v, isSome_map]

theorem SameGraph.parentsIn_eq (h : SameGraph g1 g2) : parentsIn g1 = parentsIn g2 := by
  funext v
  have hv := h v
  simp only [parentsIn, h.isSome_iff]
  cases h1 : g1.find v <;> cases h2 : g2.find v <;> simp_all

theorem sameGraph_of_rel {R : ℕ → RccDTxn → RccDTxn → Prop} (h : Dict.Rel R g1 g2)
    (hR : ∀ x d d', R x d d' → d'.parents = d.parents) : SameGraph g1 g2 := fun x => by
  cases hx : g1.find x with
  | some d =>
    obtain ⟨d', hd', hdd⟩ := h.find hx
    rw [hd', map_some, map_some, hR x d d' hdd]
  | none =>
    cases hx' : g2.find x with
    | none => rfl
    | some d' =>
      obtain ⟨d, hd, -⟩ := h.find_rev hx'
      cases hx.symm.trans hd

theorem SameGraph.above_eq (h : SameGraph g1 g2) : Above g2 = Above g1 := by
  unfold Above ParentOf
  rw [h.parentsIn_eq]

/-- `u` is in the component of `v`, the one that is noted or the one of the graph. -/
def InComponent (g : Dtxns) (v u : ℕ) : Prop :=
  (∃ d scc, g.find v = some d ∧ d.scc = some scc ∧ u ∈ scc) ∨ (Above g v u ∧ Above g u v)

theorem findSccPred_mem {scc : List ℕ} {g' : Dtxns} (hf : findSccPred g v = some (scc, g'))
    (hu : u ∈ scc) : InComponent g v u := by
  obtain ⟨d, hd, hf⟩ := bind_eq_some_iff.mp hf
  cases hscc : d.scc with
  | some c =>
    rw [hscc] at hf
    obtain ⟨rfl, -⟩ := mk.inj (some.inj hf)
    exact .inl ⟨d, c, hd, hscc, hu⟩
  | none =>
    rw [hscc] at hf
    obtain ⟨g1, -, heq⟩ := map_eq_some_iff.mp hf
    obtain ⟨rfl, -⟩ := mk.inj heq
    obtain ⟨hvu, huv⟩ := (mem_component openParents_mem_keys (mem_dedup_keys hd)).mp hu
    exact .inr ⟨above_of_openPath hvu, above_of_openPath huv⟩

theorem inComponent_of_rel {R : ℕ → RccDTxn → RccDTxn → Prop} (h : Dict.Rel R g1 g2)
    (hR : ∀ x d d', R x d d' → d'.parents = d.parents ∧
      (d'.scc = d.scc ∨ ∀ c, d'.scc = some c → u ∉ c)) (hu : InComponent g2 v u) :
    InComponent g1 v u := by
  rcases hu with ⟨d', c, hd', hc, hu⟩ | hu
  · obtain ⟨d, hd, hdd⟩ := h.find_rev hd'
    rcases (hR v d d' hdd).2 with hscc | hno
    · exact .inl ⟨d, c, hd, hscc.symm.trans hc, hu⟩
    · exact absurd hu (hno c hc)
  · rw [(sameGraph_of_rel h fun x d d' hdd => (hR x d d' hdd).1).above_eq] at hu
    exact .inr hu

theorem SameGraph.strongConnectPred_eq (h : SameGraph g1 g2) (h1 : Uncached g1)
    (h2 : Uncached g2) (v : ℕ) : strongConnectPred g1 v = strongConnectPred g2 v := by
  have hopen : openParents g1 = openParents g2 := by
    funext v
    simp only [openParents, h.parentsIn_eq, h1 _, h2 _]
  have hkeys : g1.keys.dedup.Perm g2.keys.dedup := by
    refine (perm_ext_iff_of_nodup (nodup_dedup _) (nodup_dedup _)).mpr fun a => ?_
    rw [mem_dedup, mem_dedup, Dict.mem_keys, Dict.mem_keys, h.isSome_iff]
  rw [strongConnectPred, strongConnectPred, hopen, hkeys.length_eq]

/-- Two servers with the same graph run the component of `u` and `v` in the same sequence exactly
    when the check started from the same vertex: the sequence ends with the vertex it started from. -/
theorem scc_order_eq_iff (hsame : SameGraph g1 g2) (h1 : Uncached g1) (h2 : Uncached g2)
    (hu : (g1.find u).isSome) (huv : Above g1 u v) (hvu : Above g1 v u) :
    sccOrder g1 u = sccOrder g2 v ↔ u = v := by
  have hv1 : (g1.find v).isSome := by
    rcases cases_tail huv with rfl | ⟨b, -, hbv⟩
    · exact hu
    · exact (mem_parentsIn.mp hbv).2
  have hv2 : (g2.find v).isSome := hsame.isSome_iff v ▸ hv1
  rw [sccOrder_eq h1 hu, sccOrder_eq h2 hv2, ← hsame.strongConnectPred_eq h1 h2 v]
  constructor
  · intro h
    obtain ⟨d, hd⟩ := isSome_iff_exists.mp hu
    obtain ⟨e, he⟩ := isSome_iff_exists.mp hv1
    have hlast := congrArg getLast? (some.inj h)
    rw [strongConnectPred, getLast_component openParents_mem_keys (mem_dedup_keys hd),
      strongConnectPred, getLast_component openParents_mem_keys (mem_dedup_keys he)] at hlast
    exact some.inj hlast
  · rintro rfl
    rfl

/-- Two committed transactions, each a parent of the other. -/
def twoCycle : Dtxns :=
  ⟨[(1, { status := txnCmt, parents := {2} }), (2, { status := txnCmt, parents := {1} })]⟩

theorem uncached_twoCycle : Uncached twoCycle := fun v => by
  rcases eq_or_ne v 1 with rfl | h1
  · rfl
  · rcases eq_or_ne v 2 with rfl | h2
    · rfl
    · simp [hasScc, twoCycle, find, lookup, beq_eq_false_iff_ne.mpr h1,
        beq_eq_false_iff_ne.mpr h2]

theorem scc_order_eq_iff_twoCycle : sccOrder twoCycle 1 = sccOrder twoCycle 2 ↔ (1 : ℕ) = 2 :=
  scc_order_eq_iff (fun _ => rfl) uncached_twoCycle uncached_twoCycle (by decide)
    (.single (by unfold ParentOf; decide)) (.single (by unfold ParentOf; decide))

/-- Started from 1 the component runs as 2, 1; started from 2, as 1, 2. -/
theorem twoCycle_orders_differ : sccOrder twoCycle 1 = some [2, 1] ∧
    sccOrder twoCycle 2 = some [1, 2] := by
  decide

/-! ### Calls one after the other -/

/-- The calls of `FindSccPred` on a list of vertices. -/
def findSccPreds (g : Dtxns) (vs : List ℕ) : Option Dtxns :=
  run (fun g v => (findSccPred g v).map snd) g vs

/-- What `v` has noted in `g'` is its component in `g`, and all members have noted the same. -/
def Noted (g g' : Dtxns) (v : ℕ) (scc : List ℕ) : Prop :=
  scc.Nodup ∧ (∀ x, x ∈ scc ↔ Above g v x ∧ Above g x v) ∧
    ∀ x ∈ scc, (g'.find x).bind (fun d => d.scc) = some scc

/-- The vertices and parents are those of `g`, and every component noted is the right one. -/
structure CachedFrom (g g' : Dtxns) : Prop where
  same : SameGraph g g'
  noted : ∀ v scc, (g'.find v).bind (fun d => d.scc) = some scc → Noted g g' v scc

theorem hasScc_iff : hasScc g v = true ↔ ∃ scc, (g.find v).bind (fun d => d.scc) = some scc := by
  cases h : g.find v <;> simp [hasScc, h, isSome_iff_exists]

theorem CachedFrom.closed {g' : Dtxns} (h : CachedFrom g g') : CacheClosed g' := by
  intro w x hw hwx hxw
  obtain ⟨scc, hscc⟩ := hasScc_iff.mp hw
  obtain ⟨-, hmem, hall⟩ := h.noted w scc hscc
  rw [h.same.above_eq] at hwx hxw
  exact hasScc_iff.mpr ⟨scc, hall x ((hmem x).mpr ⟨hwx, hxw⟩)⟩

theorem isSome_of_above (hv : (g.find v).isSome) (h : Above g v x) : (g.find x).isSome := by
  rcases cases_tail h with rfl | ⟨b, -, hbx⟩
  · exact hv
  · exact (mem_parentsIn.mp hbx).2

/-- A call returns the component, noted at its members, and leaves the rest of the notes. -/
theorem CachedFrom.call {g' : Dtxns} (h : CachedFrom g g') (hv : (g.find v).isSome) :
    ∃ scc g'', findSccPred g' v = some (scc, g'') ∧ Noted g g'' v scc ∧ CachedFrom g g'' := by
  obtain ⟨d, hd⟩ := isSome_iff_exists.mp (h.same.isSome_iff v ▸ hv)
  cases hscc : d.scc with
  | some scc =>
    refine ⟨scc, g', by simp [findSccPred, hd, hscc], h.noted v scc (by simp [hd, hscc]), h⟩
  | none =>
    have hno : hasScc g' v = false := by simp [hasScc, hd, hscc]
    obtain ⟨g'', hcall, hfind⟩ := findSccPred_eq hd hscc
    have hmem (x : ℕ) : x ∈ strongConnectPred g' v ↔ Above g v x ∧ Above g x v := by
      rw [mem_strongConnectPred h.closed hd hno, h.same.above_eq]
    have hnew : ∀ x ∈ strongConnectPred g' v,
        (g''.find x).bind (fun d => d.scc) = some (strongConnectPred g' v) := by
      intro x hx
      obtain ⟨e, he⟩ := isSome_iff_exists.mp
        (h.same.isSome_iff x ▸ isSome_of_above hv ((hmem x).mp hx).1)
      rw [hfind, he, map_some, if_pos hx, bind_some]
      rfl
    have hold : ∀ x, x ∉ strongConnectPred g' v → g''.find x = g'.find x := by
      intro x hx
      rw [hfind]
      simp [hx]
    have hnodup := nodup_component openParents_mem_keys (mem_dedup_keys hd)
    refine ⟨_, g'', hcall, ⟨hnodup, hmem, hnew⟩, fun x => ?_, fun x scc hx => ?_⟩
    · rw [h.same x, hfind, Option.map_map]
      exact congrArg (fun f => (g'.find x).map f) (funext fun d => by simp; split <;> rfl)
    · by_cases hxv : x ∈ strongConnectPred g' v
      · obtain rfl := some.inj ((hnew x hxv).symm.trans hx)
        obtain ⟨hvx, hxv'⟩ := (hmem x).mp hxv
        refine ⟨hnodup, fun y => (hmem y).trans ?_, hnew⟩
        exact ⟨fun hy => ⟨hxv'.trans hy.1, hy.2.trans hvx⟩,
          fun hy => ⟨hvx.trans hy.1, hy.2.trans hxv'⟩⟩
      · rw [hold x hxv] at hx
        obtain ⟨hnd, hscc', hall⟩ := h.noted x scc hx
        refine ⟨hnd, hscc', fun y hy => ?_⟩
        -- a member of an older component is not in the new one, whose members had none
        have hyv : y ∉ strongConnectPred g' v := fun hyv => by
          have hfalse := hasScc_of_mem_strongConnectPred hd hno hyv
          rw [hasScc_iff.mpr ⟨scc, hall y hy⟩] at hfalse
          cases hfalse
        rw [hold y hyv]
        exact hall y hy

/-- After any calls on a graph without notes, a call on any vertex returns the vertices mutually
    reachable with it, each once, and all of them have noted that result. -/
theorem findSccPred_exact (hg : Uncached g) {vs : List ℕ} (hvs : ∀ v ∈ vs, (g.find v).isSome) :
    ∃ g', findSccPreds g vs = some g' ∧ ∀ v, (g.find v).isSome →
      ∃ scc g'', findSccPred g' v = some (scc, g'') ∧ scc.Nodup ∧
        (∀ x, x ∈ scc ↔ Above g v x ∧ Above g x v) ∧
        ∀ x ∈ scc, (g''.find x).bind (fun d => d.scc) = some scc := by
  have hstart : CachedFrom g g := by
    refine ⟨fun _ => rfl, fun v scc hv => ?_⟩
    have hno := hg v
    rw [hasScc_iff.mpr ⟨scc, hv⟩] at hno
    cases hno
  have hrun : ∃ g', findSccPreds g vs = some g' ∧ CachedFrom g g' := by
    induction vs using reverseRecOn with
    | nil => exact ⟨g, rfl, hstart⟩
    | append_singleton vs v ih =>
      obtain ⟨g1, hg1, h1⟩ := ih fun u hu => hvs u (mem_append_left _ hu)
      obtain ⟨scc, g', hcall, -, h'⟩ := h1.call (hvs v (by simp))
      exact ⟨g', run_concat.mpr ⟨g1, hg1, by rw [hcall, map_some]⟩, h'⟩
  obtain ⟨g', hg', h'⟩ := hrun
  refine ⟨g', hg', fun v hv => ?_⟩
  obtain ⟨scc, g'', hcall, hnoted, -⟩ := h'.call hv
  exact ⟨scc, g'', hcall, hnoted⟩

theorem findSccPred_exact_twoCycle :
    ∃ g', findSccPreds twoCycle [1] = some g' ∧ ∀ v, (twoCycle.find v).isSome →
      ∃ scc g'', findSccPred g' v = some (scc, g'') ∧ scc.Nodup ∧
        (∀ x, x ∈ scc ↔ Above twoCycle v x ∧ Above twoCycle x v) ∧
        ∀ x ∈ scc, (g''.find x).bind (fun d => d.scc) = some scc :=
  findSccPred_exact uncached_twoCycle (by decide)

/-! ### Taking a message's graph in -/

/-- What `AggregateVertex` does to its own vertex. The ballots are not marshalled, so the accepted
    ballot of the vertex that came is 0. -/
def RccDTxn.aggregate (lhs : RccDTxn) (rhs : Vertex) : RccDTxn :=
  let d :=
    if lhs.maxSeenBallot = 0 ∧ lhs.status ≤ txnStd ∧ rhs.status ≤ txnStd then
      { lhs with parents := lhs.parents.union rhs.parents }
    else if txnCmt ≤ rhs.status then
      if lhs.status < rhs.status then { lhs with parents := rhs.parents } else lhs
    else if txnPac ≤ rhs.status ∧ lhs.status ≤ rhs.status then
      if lhs.maxSeenBallot ≤ 0 then { lhs with maxSeenBallot := 0, parents := rhs.parents } else lhs
    else lhs
  { d with partition := d.partition.union rhs.partition, status := d.status ||| rhs.status }

/-- The record a graph makes of a vertex it does not have: a copy. -/
def copyV (rhs : Vertex) : RccDTxn := { toVertex := rhs }

/-- The record a server makes of a vertex it does not have, without the parents. -/
def createV (rhs : Vertex) : RccDTxn := { status := rhs.status, partition := rhs.partition }

/-- `AggregateVertex`, with `create` for the vertex it does not find. -/
def aggregateVertex (create : Vertex → RccDTxn) (g : Dtxns) (id : ℕ) (rhs : Vertex) : Dtxns :=
  (g.insert id (create rhs)).modify id fun d => d.aggregate rhs

/-- `Aggregate`: every vertex of the message, once. -/
def aggregate (create : Vertex → RccDTxn) (g : Dtxns) (graph : Graph) : Dtxns :=
  graph.keys.dedup.foldl (fun g id =>
    match graph.find id with
    | none => g
    | some rhs => aggregateVertex create g id rhs) g

section Aggregate

variable {create : Vertex → RccDTxn} {graph : Graph} {id : ℕ} {rhs : Vertex}

theorem find_aggregateVertex : (aggregateVertex create g id rhs).find x =
    if x = id then some (((g.find id).getD (create rhs)).aggregate rhs) else g.find x := by
  rw [aggregateVertex, find_modify, find_insert, find_insert, if_pos rfl]
  rcases eq_or_ne x id with rfl | hx
  · rw [if_pos rfl, if_pos rfl, map_some]
  · rw [if_neg hx, if_neg hx, if_neg hx]

theorem find_foldl_aggregateVertex (graph : Graph) (x : ℕ) : ∀ (ids : List ℕ) (g : Dtxns), ids.Nodup →
    (ids.foldl (fun g id =>
      match graph.find id with
      | none => g
      | some rhs => aggregateVertex create g id rhs) g).find x =
    if x ∈ ids then (graph.find x).elim (g.find x) fun rhs =>
      some (((g.find x).getD (create rhs)).aggregate rhs) else g.find x
  | [], _, _ => by simp
  | id :: ids, g, hnd => by
    obtain ⟨hid, hids⟩ := nodup_cons.mp hnd
    rw [foldl_cons, find_foldl_aggregateVertex graph x ids _ hids]
    rcases eq_or_ne x id with rfl | hx
    · rw [if_neg hid, if_pos mem_cons_self]
      cases graph.find x with
      | none => rfl
      | some rhs => rw [find_aggregateVertex, if_pos rfl, elim_some]
    · have hsame : (match graph.find id with
          | none => g
          | some rhs => aggregateVertex create g id rhs).find x = g.find x := by
        cases graph.find id with
        | none => rfl
        | some rhs => rw [find_aggregateVertex, if_neg hx]
      simp only [hsame, mem_cons, hx, false_or]

theorem find_aggregate (create : Vertex → RccDTxn) (g : Dtxns) (graph : Graph) (x : ℕ) :
    (aggregate create g graph).find x = (graph.find x).elim (g.find x) fun rhs =>
      some (((g.find x).getD (create rhs)).aggregate rhs) := by
  rw [aggregate, find_foldl_aggregateVertex graph x _ _ (nodup_dedup _)]
  split
  · rfl
  · next hx =>
    rw [mem_dedup, Dict.mem_keys, not_isSome_iff_eq_none] at hx
    rw [hx, elim_none]

theorem find_aggregate_of_some (hx : graph.find x = some rhs) :
    (aggregate create g graph).find x = some (((g.find x).getD (create rhs)).aggregate rhs) := by
  rw [find_aggregate, hx, elim_some]

end Aggregate

end Fiss.Rcc
