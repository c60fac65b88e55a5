import Fiss.Olap.Steps

/-! The graph that `TransferOrder` builds. Whatever arrives, a column's graph holds declared edges
    only and two transactions that reach each other are one; so without self-parents it is acyclic,
    and a call of `ApplyUpdateByOrder` returns as long as the walks over the parents stay in the
    graph. When the declared parents are acyclic no edge is ever refused, and the graph is the
    declared one for every order of arrival. -/

namespace Fiss.Olap
open Relation List Function
open Option (some.inj map_eq_some_iff)

/-- An order of `t` that touches column `k` is among the parts `tr`. -/
def Announced (tr : List Msg) (k : Slot) (t : TxnId) : Prop :=
  ∃ od, Msg.order k od ∈ tr ∧ od.txnId = t

/-- Some order of `t` that touches column `k` lists `p` among its parents. -/
def Declared (tr : List Msg) (k : Slot) (p t : TxnId) : Prop :=
  ∃ od, Msg.order k od ∈ tr ∧ od.txnId = t ∧ p ∈ od.parentsTid

/-- The parent relation of all orders together, over all shards and columns. -/
def DeclaredAny (tr : List Msg) (p t : TxnId) : Prop := ∃ k, Declared tr k p t

/-- Whether an order of column `k` with `P` is among the parts can be computed. -/
def decidableOrder (tr : List Msg) (k : Slot) (P : Order → Prop) [DecidablePred P] :
    Decidable (∃ od, Msg.order k od ∈ tr ∧ P od) :=
  decidable_of_iff (tr.any (fun m => match m with
    | .order k' od => k' = k ∧ P od
    | .update _ _ => false) = true) <| by
  rw [any_eq_true]
  constructor
  · rintro ⟨m, hm, hc⟩
    cases m with
    | update k' up => simp at hc
    | order k' od =>
      obtain ⟨rfl, hP⟩ := of_decide_eq_true hc
      exact ⟨od, hm, hP⟩
  · rintro ⟨od, hod, hP⟩
    exact ⟨_, hod, decide_eq_true ⟨rfl, hP⟩⟩

instance decidableAnnounced (tr : List Msg) (k : Slot) (t : TxnId) : Decidable (Announced tr k t) :=
  decidableOrder tr k _

instance decidableDeclared (tr : List Msg) (k : Slot) (p t : TxnId) : Decidable (Declared tr k p t) :=
  decidableOrder tr k _

/-- The part names only smaller transaction ids as parents. -/
def olderParents : Msg → Bool
  | .order _ od => od.parentsTid.all fun p => p < od.txnId
  | .update _ _ => true

theorem acyclic_of_olderParents {ms : List Msg} (h : ms.all olderParents = true) :
    Acyclic (DeclaredAny ms) := by
  refine acyclic_of_rank (f := id) ?_
  rintro p t ⟨k, od, hod, rfl, hp⟩
  have hall := all_eq_true.mp (all_eq_true.mp h _ hod) p hp
  exact of_decide_eq_true hall

theorem Announced.mono {tr tr' : List Msg} {k : Slot} {t : TxnId} (h : Announced tr k t)
    (hsub : ∀ m ∈ tr, m ∈ tr') : Announced tr' k t := by
  obtain ⟨od, hod, ht⟩ := h
  exact ⟨od, hsub _ hod, ht⟩

theorem Declared.mono {tr tr' : List Msg} {k : Slot} {p t : TxnId} (h : Declared tr k p t)
    (hsub : ∀ m ∈ tr, m ∈ tr') : Declared tr' k p t := by
  obtain ⟨od, hod, ht, hp⟩ := h
  exact ⟨od, hsub _ hod, ht, hp⟩

variable {tr : List Msg} {k k' : Slot}

theorem announced_snoc_update {t : TxnId} {up : Update} :
    Announced (tr ++ [.update k' up]) k t ↔ Announced tr k t := by
  simp [Announced]

theorem declared_snoc_update {p t : TxnId} {up : Update} :
    Declared (tr ++ [.update k' up]) k p t ↔ Declared tr k p t := by
  simp [Declared]

theorem announced_snoc_order {t : TxnId} {od : Order} :
    Announced (tr ++ [.order k' od]) k t ↔ Announced tr k t ∨ (k = k' ∧ od.txnId = t) := by
  constructor
  · rintro ⟨od', hod, ht⟩
    rcases mem_append.mp hod with h | h
    · exact .inl ⟨od', h, ht⟩
    · obtain ⟨rfl, rfl⟩ := Msg.order.inj (mem_singleton.mp h)
      exact .inr ⟨rfl, ht⟩
  · rintro (h | ⟨rfl, ht⟩)
    · exact h.mono fun m hm => mem_append_left _ hm
    · exact ⟨od, by simp, ht⟩

theorem declared_snoc_order {p t : TxnId} {od : Order} : Declared (tr ++ [.order k' od]) k p t ↔
      Declared tr k p t ∨ (k = k' ∧ od.txnId = t ∧ p ∈ od.parentsTid) := by
  constructor
  · rintro ⟨od', hod, ht, hp⟩
    rcases mem_append.mp hod with h | h
    · exact .inl ⟨od', h, ht, hp⟩
    · obtain ⟨rfl, rfl⟩ := Msg.order.inj (mem_singleton.mp h)
      exact .inr ⟨rfl, ht, hp⟩
  · rintro (h | ⟨rfl, ht, hp⟩)
    · exact h.mono fun m hm => mem_append_left _ hm
    · exact ⟨od, by simp, ht, hp⟩

/-! ### What the graph holds in every run -/

/-- The vertices are the transactions announced or named as a parent, the edges are declared, and
    only a transaction itself is both above and below it. -/
structure GraphInv (s : Server) (tr : List Msg) : Prop where
  vertex : ∀ k t, (s.orderMap k).isExist t = true ↔ Announced tr k t ∨ ∃ c, Declared tr k t c
  edge : ∀ k p t, (s.orderMap k).Edge p t → Declared tr k p t
  layered : ∀ k, Layered (s.orderMap k).Edge

theorem graphInv_init : GraphInv {} [] where
  vertex k t := by simp [Announced, Declared, Graph.isExist, Graph.empty]
  edge k p t h := by simp [Graph.Edge, Graph.getParents, Graph.empty, parentsIn] at h
  layered k a b hab _ := by
    rcases ReflTransGen.cases_head hab with rfl | ⟨c, hc, -⟩
    · rfl
    · simp [Graph.Edge, Graph.getParents, Graph.empty, parentsIn] at hc

variable {h : Host} {es : List Event} {y : Replica}

theorem graphInv_order {s : Server} (hi : GraphInv s tr) (k : Slot) (od : Order) :
    GraphInv (recvOrder s k od) (tr ++ [.order k od]) := by
  refine ⟨fun k' t => ?_, fun k' p t hp => ?_, fun k' => layered_recvOrder k od k' (hi.layered k')⟩
  · simp only [isExist_recvOrder, hi.vertex, announced_snoc_order, declared_snoc_order]
    constructor
    · rintro ((ha | ⟨c, hc⟩) | ⟨rfl, rfl | hp⟩)
      · exact .inl (.inl ha)
      · exact .inr ⟨c, .inl hc⟩
      · exact .inl (.inr ⟨rfl, rfl⟩)
      · exact .inr ⟨od.txnId, .inr ⟨rfl, rfl, hp⟩⟩
    · rintro ((ha | ⟨rfl, rfl⟩) | ⟨c, hc | ⟨rfl, -, hp⟩⟩)
      · exact .inl (.inl ha)
      · exact .inr ⟨rfl, .inl rfl⟩
      · exact .inl (.inr ⟨c, hc⟩)
      · exact .inr ⟨rfl, .inr hp⟩
  · rw [declared_snoc_order]
    rcases edge_recvOrder_sub hp with h | ⟨rfl, hmem, rfl⟩
    · exact .inl (hi.edge k' p t h)
    · exact .inr ⟨rfl, rfl, hmem⟩

theorem graphInv_preserved : Preserved h (fun _ _ _ => True) GraphInv where
  wait _ _ _ _ hi := ⟨hi.vertex, hi.edge, hi.layered⟩
  touch _ _ _ _ _ hi := ⟨hi.vertex, hi.edge, hi.layered⟩
  commit _ _ _ _ hi _ := ⟨hi.vertex, hi.edge, hi.layered⟩
  order _ _ k od hi _ := graphInv_order hi k od
  update s tr k up hi _ := by
    refine ⟨fun k' t => ?_, fun k' p t hp => ?_, fun k' => ?_⟩
    · rw [recvUpdate_orderMap, hi.vertex, announced_snoc_update]
      simp only [declared_snoc_update]
    · rw [recvUpdate_orderMap] at hp
      exact declared_snoc_update.mpr (hi.edge k' p t hp)
    · rw [recvUpdate_orderMap]
      exact hi.layered k'

/-! ### The graph of acyclic orders -/

/-- Every declared edge is there, as long as the declared parents are acyclic. -/
def EdgesDeclared (s : Server) (tr : List Msg) : Prop :=
  GraphInv s tr ∧ (Acyclic (DeclaredAny tr) → ∀ k p t, Declared tr k p t → (s.orderMap k).Edge p t)

theorem edgesDeclared_order {s : Server} (hi : EdgesDeclared s tr) (k : Slot) (od : Order) :
    EdgesDeclared (recvOrder s k od) (tr ++ [.order k od]) := by
  refine ⟨graphInv_order hi.1 k od, fun hac k' p t hd => ?_⟩
  have hold : ∀ k'' a b, Declared tr k'' a b → DeclaredAny (tr ++ [.order k od]) a b :=
    fun k'' a b hab => ⟨k'', declared_snoc_order.mpr (.inl hab)⟩
  rcases declared_snoc_order.mp hd with hd | ⟨rfl, rfl, hp⟩
  · refine edge_recvOrder_mono k od (hi.2 (hac.mono ?_) k' p t hd)
    rintro a b ⟨k'', hab⟩
    exact hold k'' a b hab
  · refine edge_recvOrder_of_acyclic hac (fun a b hab => ?_) (fun q hq => ?_) hp
    · exact hold k' a b (hi.1.edge k' a b hab)
    · exact ⟨k', declared_snoc_order.mpr (.inr ⟨rfl, rfl, hq⟩)⟩

theorem edgesDeclared_preserved : Preserved h (fun _ _ _ => True) EdgesDeclared where
  wait s tr w n hi := ⟨(graphInv_preserved (h := h)).wait s tr w n hi.1, hi.2⟩
  touch s tr k id hid hi := ⟨graphInv_preserved.touch s tr k id hid hi.1, hi.2⟩
  commit s tr k t hi hr := ⟨graphInv_preserved.commit s tr k t hi.1 hr, hi.2⟩
  update s tr k up hi _ := by
    refine ⟨(graphInv_preserved (h := h)).update s tr k up hi.1 trivial, fun hac k' p t hd => ?_⟩
    rw [recvUpdate_orderMap]
    refine hi.2 (hac.mono ?_) k' p t (declared_snoc_update.mp hd)
    rintro a b ⟨k'', hab⟩
    exact ⟨k'', declared_snoc_update.mpr hab⟩
  order _ _ k od hi _ := edgesDeclared_order hi k od

theorem edgesDeclared_run
    (hr : run (step h) {} es = some y) : EdgesDeclared y.server y.received := by
  refine edgesDeclared_preserved.at_end ⟨graphInv_init, fun _ k p t hd => ?_⟩ hr
  obtain ⟨od, hod, -⟩ := hd
  simp at hod

/-! ### Sent and received -/

/-- Nothing is lost on the way: a part sent was received, or its stream has still to run it. -/
def Delivered (ms : List Msg) (y : Replica) : Prop :=
  ∀ m, m ∈ ms ↔ m ∈ y.received ∨ ∃ i, Op.recv m ∈ y.streams i

theorem exec_next {s : Server} {op : Op} {r : Server × List Op}
    (hx : exec h s op = some r) {m : Msg} : Op.recv m ∉ r.2 := by
  cases op with
  | recv m' =>
    cases m' with
    | update k up => obtain rfl := some.inj hx; dsimp only; split <;> simp
    | order k od => obtain rfl := some.inj hx; simp
  | back m' =>
    rw [exec_back] at hx
    obtain ⟨_, _, rfl⟩ := map_eq_some_iff.mp hx
    simp

theorem mem_update_streams (f : ℕ → List Op) (i : ℕ) (ops : List Op) (op : Op) :
    (∃ j, op ∈ update f i ops j) ↔ op ∈ ops ∨ ∃ j, j ≠ i ∧ op ∈ f j := by
  constructor
  · rintro ⟨j, hj⟩
    rcases eq_or_ne j i with rfl | hji
    · exact .inl (by rwa [update_self] at hj)
    · exact .inr ⟨j, hji, by rwa [update_of_ne hji] at hj⟩
  · rintro (h | ⟨j, hji, hj⟩)
    · exact ⟨i, by rwa [update_self]⟩
    · exact ⟨j, by rwa [update_of_ne hji]⟩

theorem mem_streams_split (f : ℕ → List Op) (i : ℕ) (op : Op) :
    (∃ j, op ∈ f j) ↔ op ∈ f i ∨ ∃ j, j ≠ i ∧ op ∈ f j := by
  rw [← mem_update_streams, update_eq_self]

theorem delivered_step {ms : List Msg} {y y' : Replica} {e : Event}
    (hs : step h y e = some y') (hd : Delivered ms y) : Delivered (ms ++ e.parts) y' := by
  cases move_of_step hs with
  | arrive _ i q _ =>
    intro m
    have hnew : Op.recv m ∈ e.parts.map Op.recv ↔ m ∈ e.parts := by simp
    rw [mem_append, hd m, mem_streams_split y.streams i, mem_update_streams, mem_append, hnew]
    dsimp only
    grind
  | idle _ hparts => rw [hparts, append_nil]; exact hd
  | query q s' q' _ _ => simp only [Event.parts, append_nil]; exact hd
  | run i op rest r hst hr =>
    simp only [Event.parts, append_nil]
    intro m
    have hrec : m ∈ record y.received op ↔ m ∈ y.received ∨ .recv m = op := by
      cases op <;> simp [record]
    -- only `back` sections are put in front of the rest
    have hnext : Op.recv m ∉ r.2 := exec_next hr
    rw [hd m, hrec, mem_streams_split y.streams i, hst, mem_cons, mem_update_streams, mem_append]
    tauto

theorem delivered_run : ∀ {es : List Event} {ms : List Msg} {y y' : Replica},
    run (step h) y es = some y' → Delivered ms y → Delivered (ms ++ sent es) y'
  | [], ms, y, y', hr, hd => by
    rw [sent, flatMap_nil, append_nil]
    exact some.inj hr ▸ hd
  | e :: es, ms, y, y', hr, hd => by
    obtain ⟨z, hz, hr⟩ := run_cons.mp hr
    rw [sent, flatMap_cons, ← append_assoc]
    exact delivered_run hr (delivered_step hz hd)

theorem delivered_from_start (hr : run (step h) {} es = some y) : Delivered (sent es) y := by
  have hd : Delivered ([] ++ sent es) y := delivered_run hr fun m => by simp
  exact hd

theorem mem_received_of_drained
    (hr : run (step h) {} es = some y) (hdone : ∀ i, y.streams i = []) (m : Msg) :
    m ∈ y.received ↔ m ∈ sent es := by
  rw [delivered_from_start hr m]
  simp [hdone]

/-! ### Every run returns -/

/-- The transactions the orders among `tr` name, their own and their parents. -/
def mentioned (tr : List Msg) : List TxnId :=
  tr.flatMap fun m => match m with
    | .order _ od => od.txnId :: od.parentsTid
    | .update _ _ => []

section
variable {s : Server} {ms : List Msg} (hi : GraphInv s tr)
include hi

theorem GraphInv.mem_mentioned (hsub : ∀ m ∈ tr, m ∈ ms) {t : TxnId}
    (ht : (s.orderMap k).isExist t = true) : t ∈ mentioned ms := by
  rw [mentioned, mem_flatMap]
  rcases (hi.vertex k t).mp ht with ⟨od, hod, rfl⟩ | ⟨c, od, hod, -, hp⟩
  · exact ⟨_, hsub _ hod, mem_cons_self ..⟩
  · exact ⟨_, hsub _ hod, mem_cons_of_mem _ hp⟩

theorem GraphInv.vertices_length_le (hsub : ∀ m ∈ tr, m ∈ ms) (k : Slot) :
    (s.orderMap k).vertices.length ≤ (mentioned ms).length :=
  (subperm_of_subset (s.orderMap k).distinct fun _ ht =>
    hi.mem_mentioned hsub (Graph.mem_vertices.mp ht)).length_le

theorem acyclic_of_no_self_parent (hself : ∀ od, Msg.order k od ∈ tr → od.txnId ∉ od.parentsTid) :
    Acyclic (s.orderMap k).Edge := by
  refine acyclic_of_layered (hi.layered k) fun a ha => ?_
  obtain ⟨od, hod, rfl, hp⟩ := hi.edge k a a ha
  exact hself od hod hp

end

/-- After any messages in which no order lists itself as a parent, every column's graph is acyclic,
    and from there a call of `ApplyUpdateByOrder` for any transaction returns once the stack holds
    more nested calls than the graph has vertices, if the walks over the parents read no vertex
    that is not a parent. -/
theorem graph_acyclic_and_apply_returns {h : Host} {es : List Event} {y : Replica}
    (hr : run (step h) {} es = some y)
    (hself : ∀ k od, Msg.order k od ∈ y.received → od.txnId ∉ od.parentsTid) (k : Slot) :
    Acyclic (y.server.orderMap k).Edge ∧ ∀ (h' : Host) (n : ℕ) (t : TxnId),
        h'.ReadsOnly (fun x => (y.server.orderMap k).isExist x = true) →
        (y.server.orderMap k).vertices.length < n →
          ∃ r, applyUpdateByOrder h' k n y.server t = some r := by
  have hacyc := acyclic_of_no_self_parent (graphInv_preserved.at_end graphInv_init hr) (hself k)
  refine ⟨hacyc, fun h' n t hreads hn => ?_⟩
  obtain ⟨s', b, ha, -⟩ := applyUpdateByOrder_returns h' k _ hacyc hreads n y.server t rfl
    (lt_of_le_of_lt (ancestorCount_le _ _ t) hn)
  exact ⟨_, ha⟩

/-- Two orders that name each other as parents: the second edge is refused. -/
theorem mutual_parents_acyclic_and_return : ∃ y, run (step (.inOrder 3)) {}
        (deliverOrder 0 stockQuantity 1 [2] ++ deliverOrder 0 stockQuantity 2 [1]) = some y ∧
      Acyclic (y.server.orderMap stockQuantity).Edge ∧
      ∃ r, applyUpdateByOrder (.inOrder 3) stockQuantity 3 y.server 1 = some r := by
  obtain ⟨y, hy, hlen⟩ : ∃ y, run (step (.inOrder 3)) {}
      (deliverOrder 0 stockQuantity 1 [2] ++ deliverOrder 0 stockQuantity 2 [1]) = some y ∧
      (y.server.orderMap stockQuantity).vertices.length < 3 := ⟨_, rfl, by decide⟩
  have hself : ∀ k od, Msg.order k od ∈ y.received → od.txnId ∉ od.parentsTid := by
    intro k od hod
    have hsent : Msg.order k od ∈ [Msg.order stockQuantity (orderIn stockQuantity 1 [2]),
      .order stockQuantity (orderIn stockQuantity 2 [1])] := (delivered_from_start hy _).mpr (.inl hod)
    simp only [mem_cons, not_mem_nil, or_false, Msg.order.injEq] at hsent
    rcases hsent with ⟨-, rfl⟩ | ⟨-, rfl⟩ <;> decide
  obtain ⟨hacyc, hret⟩ := graph_acyclic_and_apply_returns hy hself stockQuantity
  exact ⟨y, hy, hacyc, hret (.inOrder 3) 3 1 (fun _ _ _ hx _ => hx) hlen⟩

/-- A call for a complete transaction that waits with a parent, when the walk reads the transaction
    itself. -/
theorem apply_of_reads_itself {t : TxnId} (hreads : ∀ n ps, h.reads n ps = [t]) :
    ∀ (n : ℕ) {s : Server}, (s.orderMap k).isExist t = true → (s.orderMap k).getParents t ≠ [] →
      (∃ ups, (s.updateMap k).find t = some ups ∧ upCntOf s k t = ups.length) →
      statusOf s k t = 0 → applyUpdateByOrder h k n s t = none
  | 0, _, _, _, _, _ => rfl
  | n + 1, s, hex, hpar, hpend, hst => by
    obtain ⟨ups, hups, hcnt⟩ := hpend
    have hagain : applyUpdateByOrder h k n (touch { s with walks := s.walks + 1 } k t) t = none :=
      apply_of_reads_itself hreads n hex hpar ⟨ups, hups, by rw [upCntOf_touch]; exact hcnt⟩
        (by rw [statusOf_touch]; exact hst)
    have hst' : statusOf { s with walks := s.walks + 1 } k t = 0 := hst
    rw [applyUpdateByOrder, hex, hups, if_neg (by simp), Option.getD_some, hcnt, if_neg (by simp),
      triggerCheckParent, if_neg hpar, hreads, checkParents, if_pos hst', hagain]

/-- Transaction 2 waits with its parent 1 when a walk over the parents reads 2: the graph has no cycle,
    and the call does not return however deep it may go. -/
theorem reading_itself_never_returns : ∃ y, run (step ⟨fun _ _ => [2], 9⟩) {}
        (deliverOrder 0 stockQuantity 1 [] ++ (deliverOrder 0 stockQuantity 2 [1] ++
          [.update 1 ⟨0, "stock.s_quantity", [⟨"s_i_id", "1", "9", .update, 2⟩]⟩, .run 1])) = some y ∧
      (y.server.orderMap stockQuantity).getParents 2 = [1] ∧
      ∀ n, applyUpdateByOrder ⟨fun _ _ => [2], 9⟩ stockQuantity n y.server 2 = none := by
  refine ⟨_, rfl, by decide, fun n => ?_⟩
  exact apply_of_reads_itself (fun _ _ => rfl) n (by decide) (by decide) ⟨_, rfl, by decide⟩
    (by decide)

theorem step_returns
    (hcall : ∀ k t, ∃ r, applyUpdateByOrder h k h.depth y.server t = some r) (e : Event) :
    ∃ y', step h y e = some y' := by
  cases e with
  | order i req | update i req => exact ⟨_, rfl⟩
  | run i =>
    simp only [step]
    cases y.streams i with
    | nil => exact ⟨_, rfl⟩
    | cons op rest =>
      suffices hx : ∃ r, exec h y.server op = some r by
        obtain ⟨r, hr⟩ := hx
        exact ⟨_, congrArg (Option.map _) hr⟩
      cases op with
      | recv m => cases m <;> exact ⟨_, rfl⟩
      | back m =>
        obtain ⟨r, hr⟩ := hcall m.slot m.txn
        exact ⟨_, by rw [exec_back, hr]; rfl⟩
  | query =>
    simp only [step]
    cases y.query with
    | none => exact ⟨_, rfl⟩
    | some q =>
      suffices hx : ∃ r, queryStep h y.server q = some r by
        obtain ⟨r, hr⟩ := hx
        exact ⟨_, congrArg (Option.map _) hr⟩
      unfold queryStep
      split
      case h_4 t k todo _ =>
        obtain ⟨r, hr⟩ := hcall k t
        exact ⟨_, congrArg (Option.map _) hr⟩
      case h_6 => split <;> exact ⟨_, rfl⟩
      all_goals exact ⟨_, rfl⟩

theorem Host.ReadsOnly.mono {p q : TxnId → Prop} (hr : h.ReadsOnly q) (hpq : ∀ x, p x → q x) :
    h.ReadsOnly p := fun n ps x hx hp => hr n ps x hx (hpq x hp)

theorem run_returns (hself : ∀ k od, Msg.order k od ∈ sent es → od.txnId ∉ od.parentsTid)
    (hreads : h.ReadsOnly fun x => x ∈ mentioned (sent es))
    (hdepth : (mentioned (sent es)).length < h.depth) : ∃ y, run (step h) {} es = some y := by
  induction es using List.reverseRecOn with
  | nil => exact ⟨_, rfl⟩
  | append_singleton es e ih =>
    have hsent : sent (es ++ [e]) = sent es ++ e.parts := by simp [sent]
    have hsub : mentioned (sent es) <+ mentioned (sent (es ++ [e])) := by
      rw [hsent, mentioned, mentioned, flatMap_append]
      exact sublist_append_left ..
    have hself' : ∀ k od, Msg.order k od ∈ sent es → od.txnId ∉ od.parentsTid :=
      fun k od hod => hself k od (by rw [hsent]; exact mem_append_left _ hod)
    have hreads' := hreads.mono fun _ hx => hsub.subset hx
    obtain ⟨y, hy⟩ := ih hself' hreads' (lt_of_le_of_lt hsub.length_le hdepth)
    have hrec : ∀ m ∈ y.received, m ∈ sent es :=
      fun m hm => (delivered_from_start hy m).mpr (.inl hm)
    have hcall : ∀ k t, ∃ r, applyUpdateByOrder h k h.depth y.server t = some r := by
      intro k t
      have hgi := graphInv_preserved.at_end graphInv_init hy
      have hacyc := acyclic_of_no_self_parent hgi fun od hod => hself' k od (hrec _ hod)
      obtain ⟨s', b, ha, -⟩ := applyUpdateByOrder_returns h k _ hacyc
        (hreads'.mono fun _ hx => hgi.mem_mentioned hrec hx) h.depth y.server t rfl (by
          have hle := ancestorCount_le (y.server.orderMap k).Edge (y.server.orderMap k).vertices t
          have hle' := hgi.vertices_length_le hrec k
          have hle'' := hsub.length_le
          omega)
      exact ⟨_, ha⟩
    obtain ⟨y', hy'⟩ := step_returns hcall e
    exact ⟨y', by rw [run_append, hy]; exact run_cons.mpr ⟨y', hy', rfl⟩⟩

/-! ### The graph does not depend on the order of arrival -/

theorem no_self_of_acyclic {ms : List Msg} (hac : Acyclic (DeclaredAny ms)) (k : Slot) (od : Order)
    (hod : Msg.order k od ∈ ms) : od.txnId ∉ od.parentsTid :=
  fun hp => hac od.txnId (.single ⟨k, od, hod, rfl, hp⟩)

theorem graph_of_drained (hr : run (step h) {} es = some y) (hdone : ∀ i, y.streams i = [])
    (hac : Acyclic (DeclaredAny (sent es))) (k : Slot) :
    (∀ t, (y.server.orderMap k).isExist t = true ↔
      Announced (sent es) k t ∨ ∃ c, Declared (sent es) k t c) ∧
    ∀ p t, (y.server.orderMap k).Edge p t ↔ Declared (sent es) k p t := by
  have hmem := mem_received_of_drained hr hdone
  have ha : ∀ t, Announced y.received k t ↔ Announced (sent es) k t := fun t =>
    exists_congr fun od => and_congr_left' (hmem _)
  have hd : ∀ k p t, Declared y.received k p t ↔ Declared (sent es) k p t := fun k p t =>
    exists_congr fun od => and_congr_left' (hmem _)
  have hac' : Acyclic (DeclaredAny y.received) := by
    refine hac.mono ?_
    rintro a b ⟨k', hab⟩
    exact ⟨k', (hd k' a b).mp hab⟩
  obtain ⟨hgi, hedge⟩ := edgesDeclared_run hr
  refine ⟨fun t => ?_, fun p t => ⟨fun he => ?_, fun hdec => ?_⟩⟩
  · rw [hgi.vertex, ha]
    exact or_congr_right (exists_congr fun c => hd k t c)
  · exact (hd k p t).mp (hgi.edge k p t he)
  · exact hedge hac' k p t ((hd k p t).mpr hdec)

/-- Two deliveries of the same acyclic orders, in any order and any number of copies, on any streams
    and among any updates and queries, build the same graphs: the vertices are the transactions the
    orders of the column name and the edges are the declared ones. They return where the walks over
    the parents read no other transaction of the orders. -/
theorem graph_eq_declared {h g : Host} {es es' : List Event}
    (hsame : ∀ k od, Msg.order k od ∈ sent es ↔ Msg.order k od ∈ sent es')
    (hac : Acyclic (DeclaredAny (sent es))) :
    ((mentioned (sent es)).length < h.depth → h.ReadsOnly (fun x => x ∈ mentioned (sent es)) →
      ∃ y, run (step h) {} es = some y) ∧
    ((mentioned (sent es')).length < g.depth → g.ReadsOnly (fun x => x ∈ mentioned (sent es')) →
      ∃ y', run (step g) {} es' = some y') ∧
    ∀ y y', run (step h) {} es = some y → run (step g) {} es' = some y' →
      (∀ i, y.streams i = []) → (∀ i, y'.streams i = []) → ∀ k,
        (∀ t, (y.server.orderMap k).isExist t = (y'.server.orderMap k).isExist t) ∧
        (∀ p t, (y.server.orderMap k).Edge p t ↔ (y'.server.orderMap k).Edge p t) ∧
        (∀ t, (y.server.orderMap k).isExist t = true ↔
          Announced (sent es) k t ∨ ∃ c, Declared (sent es) k t c) ∧
        ∀ p t, (y.server.orderMap k).Edge p t ↔ Declared (sent es) k p t := by
  have hsub : ∀ k p t, Declared (sent es) k p t ↔ Declared (sent es') k p t := fun k p t =>
    exists_congr fun od => and_congr_left' (hsame k od)
  have hac' : Acyclic (DeclaredAny (sent es')) := by
    refine hac.mono ?_
    rintro a b ⟨k, hd⟩
    exact ⟨k, (hsub k a b).mpr hd⟩
  refine ⟨fun hdepth hreads => run_returns (no_self_of_acyclic hac) hreads hdepth,
    fun hdepth hreads => run_returns (no_self_of_acyclic hac') hreads hdepth,
    fun y y' hy hy' hdone hdone' k => ?_⟩
  obtain ⟨hv, he⟩ := graph_of_drained hy hdone hac k
  obtain ⟨hv', he'⟩ := graph_of_drained hy' hdone' hac' k
  refine ⟨fun t => ?_, fun p t => ?_, hv, he⟩
  · rw [Bool.eq_iff_iff, hv, hv']
    refine or_congr (exists_congr fun od => and_congr_left' (hsame k od)) ?_
    exact exists_congr fun c => hsub k t c
  · rw [he, he', hsub]

/-- A child before its parent, and the two the other way round with the child sent twice. -/
theorem two_deliveries_one_graph : ∃ y y', run (step (.inOrder 9)) {}
        (deliverOrder 0 stockQuantity 2 [1] ++ deliverOrder 1 stockQuantity 1 []) = some y ∧
      run (step (.inOrder 9)) {} (deliverOrder 0 stockQuantity 1 [] ++
        (deliverOrder 1 stockQuantity 2 [1] ++ deliverOrder 0 stockQuantity 2 [1])) = some y' ∧
      (y.server.orderMap stockQuantity).Edge 1 2 ∧
      ∀ p t, (y.server.orderMap stockQuantity).Edge p t ↔
        (y'.server.orderMap stockQuantity).Edge p t := by
  have hac : Acyclic (DeclaredAny
      (sent (deliverOrder 0 stockQuantity 2 [1] ++ deliverOrder 1 stockQuantity 1 []))) :=
    acyclic_of_olderParents (by decide)
  have hsame : ∀ k od, Msg.order k od ∈
      sent (deliverOrder 0 stockQuantity 2 [1] ++ deliverOrder 1 stockQuantity 1 []) ↔
      Msg.order k od ∈ sent (deliverOrder 0 stockQuantity 1 [] ++
        (deliverOrder 1 stockQuantity 2 [1] ++ deliverOrder 0 stockQuantity 2 [1])) := by
    intro k od
    simp [or_comm]
  obtain ⟨hret, hret', hgraph⟩ := graph_eq_declared (h := .inOrder 9) (g := .inOrder 9) hsame hac
  obtain ⟨y, hy⟩ := hret (by decide) fun _ _ _ hx _ => hx
  obtain ⟨y', hy'⟩ := hret' (by decide) fun _ _ _ hx _ => hx
  have hdone : ∀ i, y.streams i = [] := by
    rintro (_ | _ | i) <;> exact some.inj hy ▸ rfl
  have hdone' : ∀ i, y'.streams i = [] := by
    rintro (_ | _ | i) <;> exact some.inj hy' ▸ rfl
  obtain ⟨-, hedges, -, hdecl⟩ := hgraph y y' hy hy' hdone hdone' stockQuantity
  exact ⟨y, y', hy, hy', (hdecl 1 2).mpr ⟨orderIn stockQuantity 2 [1], by simp, rfl, by simp [orderIn]⟩,
    hedges⟩

end Fiss.Olap
