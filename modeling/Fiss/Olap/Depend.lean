import Fiss.Olap.Ingest

/-! The order in which updates are ingested. A transaction waits for its parents through their
    status: 0 means not applied yet. A parent that is named before its own order arrives gets a
    placeholder record of status 1, and `map::insert` keeps it when that order comes; an order that
    comes after its transaction was ingested changes nothing any more; and a walk over the parents
    need not read them. So the order is guaranteed in the runs in which the walks read all parents,
    no order arrives for a placeholder, and no later order names new parents. -/

namespace Fiss.Olap
open Relation List Option Msg

/-- Every ingestion of `t` in column `k` has one of `p` before it. -/
def Before (l : List (Slot × Update)) (k : Slot) (p t : TxnId) : Prop :=
  ∀ l1 e, l1 ++ [e] <+: l → e.1 = k → e.2.txnId = t → ∃ e' ∈ l1, e'.1 = k ∧ e'.2.txnId = p

theorem before_nil (k : Slot) (p t : TxnId) : Before [] k p t := by
  intro l1 e hpre
  simp at hpre

theorem before_snoc {l : List (Slot × Update)} {e : Slot × Update} {k : Slot} {p t : TxnId} :
    Before (l ++ [e]) k p t ↔ Before l k p t ∧
      (e.1 = k → e.2.txnId = t → ∃ e' ∈ l, e'.1 = k ∧ e'.2.txnId = p) := by
  constructor
  · refine fun h => ⟨fun l1 e' hpre => h l1 e' (hpre.trans (prefix_append _ _)), ?_⟩
    exact h l e (prefix_refl _)
  · rintro ⟨hl, he⟩ l1 e' hpre
    rcases prefix_concat_iff.mp hpre with heq | hpre
    · obtain ⟨rfl, hlast⟩ := append_inj' heq rfl
      obtain rfl := singleton_inj.mp hlast
      exact he
    · exact hl l1 e' hpre

instance (l : List (Slot × Update)) (k : Slot) (p t : TxnId) : Decidable (Before l k p t) :=
  decidable_of_iff (∀ i : Fin l.length, l[i].1 = k → l[i].2.txnId = t →
    ∃ e' ∈ l.take i, e'.1 = k ∧ e'.2.txnId = p) <| by
  constructor
  · rintro h l1 e ⟨l2, rfl⟩
    have hi := h ⟨l1.length, by simp⟩
    simpa using hi
  · intro h i
    exact h (l.take i) l[i] (by rw [Fin.getElem_fin, take_concat_get']; exact take_prefix _ _)

/-- Whenever a declared parent is announced at some time and both are ingested, the parent's update
    is ingested before the child's. -/
def DependencyOrder (s : Server) (tr : List Msg) : Prop :=
  ∀ k p t, Declared tr k p t → Announced tr k p → Ingested s k p → Before s.ingested k p t

/-- Some order that touches column `k` lists `t` among its parents. -/
def Named (tr : List Msg) (k : Slot) (t : TxnId) : Prop :=
  ∃ od, order k od ∈ tr ∧ t ∈ od.parentsTid

/-- The part is an UPDATE of `t` in column `k`. -/
def Msg.updates (k : Slot) (t : TxnId) : Msg → Bool
  | .update k' up => k' = k ∧ up.opType = .update ∧ up.txnId = t
  | .order _ _ => false

/-- A transaction that an order names as a parent was announced in the column before; and an order that
    comes after an order and the UPDATE of its transaction names no new parent. -/
def NoLateOrder (_ : Server) (tr : List Msg) : Msg → Prop
  | .update _ _ => True
  | .order k od => (Named tr k od.txnId → Announced tr k od.txnId) ∧
      (Announced tr k od.txnId → (∃ m ∈ tr, m.updates k od.txnId = true) →
        ∀ p ∈ od.parentsTid, Declared tr k p od.txnId)

instance decidableNoLateOrder : ∀ s tr m, Decidable (NoLateOrder s tr m)
  | _, _, .update _ _ => isTrue trivial
  | _, tr, .order k od =>
    have : Decidable (Named tr k od.txnId) := decidableOrder tr k _
    inferInstanceAs (Decidable ((Named tr k od.txnId → Announced tr k od.txnId) ∧
      (Announced tr k od.txnId → (∃ m ∈ tr, m.updates k od.txnId = true) →
        ∀ p ∈ od.parentsTid, Declared tr k p od.txnId)))

/-- An announced transaction waits with status 0 until it is ingested, and every ingestion has the
    announced parents before it. -/
structure DependInv (h : Host) (s : Server) (tr : List Msg) : Prop where
  base : Base h s tr
  edges : EdgesDeclared s tr
  waits : ∀ k t, Announced tr k t → statusOf s k t = 0 ∨ Ingested s k t
  before : Acyclic (DeclaredAny tr) → ∀ k p t, Declared tr k p t → Announced tr k p →
    Before s.ingested k p t

theorem dependInv_init (h : Host) : DependInv h {} [] where
  base := base_init
  edges := ⟨graphInv_init, fun _ k p t ⟨_, hod, _⟩ => by simp at hod⟩
  waits k t h := by obtain ⟨od, hod, -⟩ := h; simp at hod
  before _ k p t _ _ := before_nil k p t

theorem before_of_not_ingested {s : Server} {k : Slot} {t : TxnId} (h : ¬ Ingested s k t)
    (p : TxnId) : Before s.ingested k p t := fun _ e hpre hk ht =>
  absurd ⟨e, hpre.subset (by simp), hk, ht⟩ h

variable {h : Host} {s : Server} {tr : List Msg} {k : Slot}

theorem announced_of_vertex {t : TxnId} (hgi : GraphInv s tr)
    (hnamed : Named tr k t → Announced tr k t) (hex : (s.orderMap k).isExist t = true) :
    Announced tr k t := by
  rcases (hgi.vertex k t).mp hex with ha | ⟨c, od, hod, -, hp⟩
  · exact ha
  · exact hnamed ⟨od, hod, hp⟩

/-- A transaction that is ingested was announced, and its UPDATE received. -/
theorem Base.of_ingested {t : TxnId} (hb : Base h s tr) (hgi : GraphInv s tr)
    (hnamed : Named tr k t → Announced tr k t) (hin : Ingested s k t) :
    Announced tr k t ∧ ∃ m ∈ tr, m.updates k t = true := by
  obtain ⟨⟨k, u⟩, hin, rfl, rfl⟩ := hin
  obtain ⟨hex, -, hop, hmem⟩ := hb.done k u hin
  exact ⟨announced_of_vertex hgi hnamed hex, _, hmem, decide_eq_true ⟨rfl, hop, rfl⟩⟩

theorem dependInv_order {od : Order} (hi : DependInv h s tr) (hC : NoLateOrder s tr (.order k od)) :
    DependInv h (recvOrder s k od) (tr ++ [.order k od]) where
  base := base_order k od hi.base
  edges := edgesDeclared_order hi.edges k od
  waits k' t ha := by
    rcases Classical.em (Announced tr k' t) with hold | hnew
    · have hrec := hi.base.record k' t ((hi.edges.1.vertex k' t).mpr (.inl hold))
      rw [statusOf_recvOrder hrec]
      exact hi.waits k' t hold
    · -- the first order of `t` here finds no record, or the one of a read
      obtain ⟨rfl, rfl⟩ := (announced_snoc_order.mp ha).resolve_left hnew
      refine .inl ?_
      cases hf : (s.orderVec k').find od.txnId with
      | none => rw [statusOf, find_recvOrder, hf, none_or, if_pos ⟨rfl, rfl⟩]; rfl
      | some v =>
        rw [statusOf_recvOrder (by rw [hf]; rfl)]
        by_contra hst
        exact hnew (announced_of_vertex hi.edges.1 hC.1 (hi.base.vertex k' _ hst))
  before hac k' p t hd ha := by
    have hac' : Acyclic (DeclaredAny tr) := by
      refine hac.mono ?_
      rintro a b ⟨k'', hab⟩
      exact ⟨k'', declared_snoc_order.mpr (.inl hab)⟩
    have hold : Declared tr k' p t → Before s.ingested k' p t := fun hdold => by
      refine hi.before hac' k' p t hdold ?_
      rcases announced_snoc_order.mp ha with haold | ⟨rfl, rfl⟩
      · exact haold
      · obtain ⟨od', hod', -, hp⟩ := hdold
        exact hC.1 ⟨od', hod', hp⟩
    rcases declared_snoc_order.mp hd with hdold | ⟨rfl, rfl, hp⟩
    · exact hold hdold
    · by_cases hin : Ingested s k' od.txnId
      · obtain ⟨hann, hup⟩ := hi.base.of_ingested hi.edges.1 hC.1 hin
        exact hold (hC.2 hann hup p hp)
      · exact before_of_not_ingested hin p

theorem dependInv_commit {t : TxnId} (hall : h.ReadsAll) (hi : DependInv h s tr)
    (hr : Ready h s k t) : DependInv h (ingestTxn s k t) tr := by
  obtain ⟨u, -, htxn, -, -, -, hing⟩ := hi.base.commit_update hr
  refine ⟨base_commit hi.base hr, edgesDeclared_preserved.commit s tr k t hi.edges hr, ?_, ?_⟩
  · intro k' t' ha
    rw [statusOf_ingestTxn]
    rcases Classical.em (k' = k ∧ t' = t) with ⟨rfl, rfl⟩ | hne
    · exact .inr (hi.base.ingested_commit hr)
    · rw [if_neg hne]
      exact (hi.waits k' t' ha).imp_right fun hin => hin.mono fun e he => mem_append_left _ he
  · intro hac k' p t' hd ha
    rw [hing, before_snoc]
    refine ⟨hi.before hac k' p t' hd ha, ?_⟩
    rintro rfl rfl
    -- the parent's status is not 0, and it was announced: it has been ingested
    have hst : statusOf s k p ≠ 0 := hr.parents hall p (hi.edges.2 hac k p t (htxn ▸ hd))
    exact (hi.waits k p ha).resolve_left hst

theorem dependInv_preserved (hall : h.ReadsAll) : Preserved h NoLateOrder (DependInv h) where
  wait s tr w n hi := ⟨base_preserved.wait s tr w n hi.base,
    (edgesDeclared_preserved (h := h)).wait s tr w n hi.edges, hi.waits, hi.before⟩
  order _ _ _ _ hi hC := dependInv_order hi hC
  touch s tr k id hid hi := ⟨base_touch hi.base hid,
    edgesDeclared_preserved.touch s tr k id hid hi.edges,
    fun k' t ha => by rw [statusOf_touch]; exact hi.waits k' t ha, hi.before⟩
  commit _ _ _ _ hi hr := dependInv_commit hall hi hr
  update s tr k up hi _ := by
    refine ⟨base_update k up hi.base,
      (edgesDeclared_preserved (h := h)).update s tr k up hi.edges trivial, ?_, ?_⟩
    · intro k' t ha
      rw [statusOf, recvUpdate_orderVec, Ingested, recvUpdate_ingested]
      exact hi.waits k' t (announced_snoc_update.mp ha)
    · intro hac k' p t hd ha
      rw [recvUpdate_ingested]
      refine hi.before (hac.mono ?_) k' p t (declared_snoc_update.mp hd) (announced_snoc_update.mp ha)
      rintro a b ⟨k'', hab⟩
      exact ⟨k'', declared_snoc_update.mpr hab⟩

/-- In a run in which the walks over the parents read them all, every transaction is announced in a
    column before an order names it as a parent, and no order that comes after one of its transaction
    and after the UPDATE names a new parent, updates are ingested in dependency order. -/
theorem ingested_in_dependency_order (h : Host) (hall : h.ReadsAll) (es : List Event)
    (hC : Along (step h) (OnRecv NoLateOrder) {} es) :
    Throughout (step h) (fun y => Acyclic (DeclaredAny y.received) →
      DependencyOrder y.server y.received) {} es :=
  throughout_mono (fun _ hy hac k p t hd ha _ => hy.before hac k p t hd ha)
    ((dependInv_preserved hall).throughout (dependInv_init h) hC)

/-- The parent's order and update come first. -/
theorem parent_first_in_order :
    Throughout (step (.inOrder 9)) (fun y => Acyclic (DeclaredAny y.received) →
      DependencyOrder y.server y.received) {}
      (deliverOrder 0 stockQuantity 1 [] ++ (deliverOrder 0 stockQuantity 2 [1] ++
        (deliverUpdate 1 stockQuantity ⟨"s_i_id", "1", "10", .update, 1⟩ ++
          deliverUpdate 1 stockQuantity ⟨"s_i_id", "1", "9", .update, 2⟩))) :=
  ingested_in_dependency_order _ (fun _ _ _ hp => hp) _ (by decide)

/-- Transaction 2 is announced without parents and its update comes; a second order of it names the
    parent 1, whose order and update come then. -/
def lateParent : List Event :=
  deliverOrder 0 stockQuantity 2 [] ++
    (deliverUpdate 1 stockQuantity ⟨"s_i_id", "1", "9", .update, 2⟩ ++
      (deliverOrder 0 stockQuantity 2 [1] ++ (deliverOrder 0 stockQuantity 1 [] ++
        deliverUpdate 1 stockQuantity ⟨"s_i_id", "1", "10", .update, 1⟩)))

/-- The child is ingested before its parent, whatever the walks over the parents read. -/
theorem lateParent_ingested (reads : ℕ → List TxnId → List TxnId) (depth : ℕ) :
    ∃ y, run (step ⟨reads, depth + 1⟩) {} lateParent = some y ∧
      Acyclic (DeclaredAny y.received) ∧ ¬ DependencyOrder y.server y.received := by
  obtain ⟨y, hy, hin, hrec⟩ : ∃ y, run (step ⟨reads, depth + 1⟩) {} lateParent = some y ∧
      y.server.ingested = [(stockQuantity, ⟨"s_i_id", "1", "9", .update, 2⟩),
        (stockQuantity, ⟨"s_i_id", "1", "10", .update, 1⟩)] ∧ y.received = sent lateParent :=
    ⟨_, rfl, rfl, rfl⟩
  refine ⟨y, hy, by rw [hrec]; exact acyclic_of_olderParents (by decide), fun hdo => ?_⟩
  have hbefore := hdo stockQuantity 1 2 (by rw [hrec]; decide) (by rw [hrec]; decide)
    (by rw [Ingested, hin]; decide)
  rw [hin] at hbefore
  revert hbefore
  decide

theorem child_ingested_before_parent : ∃ y, run (step (.inOrder 9)) {} lateParent = some y ∧
    Acyclic (DeclaredAny y.received) ∧ ¬ DependencyOrder y.server y.received :=
  lateParent_ingested (fun _ ps => ps) 8

/-! ### What is left when everything is delivered -/

/-- A transaction has one UPDATE in a column at most. -/
def OneUpdate (tr : List Msg) : Prop :=
  ∀ k u u', update k u ∈ tr → update k u' ∈ tr → u.opType = .update →
    u'.opType = .update → u.txnId = u'.txnId → u = u'

theorem Base.upCntOf_eq (hb : Base h s tr) (hreads : h.ReadsOnly fun _ => True) {t : TxnId}
    (hex : (s.orderMap k).isExist t = true) : upCntOf s k t = 1 :=
  hb.single hreads k t (hb.record k t hex)

theorem keptOne_preserved : Preserved h (fun _ _ _ => True)
    (fun s tr => Base h s tr ∧ (OneUpdate tr → Kept s tr)) where
  wait s tr w n hi := ⟨base_preserved.wait s tr w n hi.1, hi.2⟩
  touch _ _ _ _ hid hi := ⟨base_touch hi.1 hid, hi.2⟩
  commit _ _ _ _ hi hr := ⟨base_commit hi.1 hr, fun hone => kept_commit (hi.2 hone)⟩
  order s tr k od hi _ := by
    refine ⟨base_order k od hi.1, fun hone => kept_order (hi.2 ?_)⟩
    exact fun k' u u' hu hu' => hone k' u u' (mem_append_left _ hu) (mem_append_left _ hu')
  update s tr k up hi _ := by
    refine ⟨base_update k up hi.1, fun hone => kept_update (hi.2 ?_) fun hop => ?_⟩
    · exact fun k' u u' hu hu' => hone k' u u' (mem_append_left _ hu) (mem_append_left _ hu')
    · cases hf : (s.updateMap k).find up.txnId with
      | none => exact .inl rfl
      | some ups =>
        -- what is pending is an UPDATE of the same transaction, so it is this one
        obtain ⟨u, rfl, htxn, hop', hmem⟩ := hi.1.held k _ ups hf
        obtain rfl := hone k u up (mem_append_left _ hmem) (by simp) hop' hop htxn
        exact .inr (.inl ⟨[u], hf, by simp⟩)

/-- The orders and updates of a run match: each announced transaction has exactly one UPDATE in the
    column, and each UPDATE is of an announced transaction. -/
structure Matched (ms : List Msg) : Prop where
  exactlyOne : ∀ k t, Announced ms k t →
    ∃! u, update k u ∈ ms ∧ u.opType = .update ∧ u.txnId = t
  announced : ∀ k u, update k u ∈ ms → u.opType = .update → Announced ms k u.txnId

theorem Matched.oneUpdate {ms : List Msg} (hm : Matched ms) : OneUpdate ms := by
  intro k u u' hu hu' hop hop' htxn
  obtain ⟨w, -, huniq⟩ := hm.exactlyOne k u.txnId (hm.announced k u hu hop)
  rw [huniq u ⟨hu, hop, rfl⟩, huniq u' ⟨hu', hop', htxn.symm⟩]

theorem supplied_of_drained {es : List Event} {y : Replica} (hreads : h.ReadsOnly fun _ => True)
    (hr : run (step h) {} es = some y) (hdone : ∀ i, y.streams i = []) (hm : Matched (sent es))
    (k : Slot) : Kept y.server y.received ∧ Supplied y.server k := by
  have hmem := mem_received_of_drained hr hdone
  obtain ⟨hb, hkept⟩ := keptOne_preserved.at_end
    ⟨base_init, fun _ k u hu => by simp at hu⟩ hr
  have hk : Kept y.server y.received := by
    refine hkept fun k u u' hu hu' => ?_
    exact hm.oneUpdate k u u' ((hmem _).mp hu) ((hmem _).mp hu')
  refine ⟨hk, fun x hex hst => ?_⟩
  have hcnt := hb.upCntOf_eq hreads hex
  have hann : Announced (sent es) k x := (hb.waits k x hcnt hst).mono fun m h => (hmem m).mp h
  obtain ⟨u, ⟨hu, hop, rfl⟩, -⟩ := hm.exactlyOne k x hann
  rcases hk k u ((hmem _).mpr hu) hop with ⟨ups, hups, -⟩ | hin
  · obtain ⟨v, rfl, -⟩ := hb.held k _ ups hups
    exact ⟨[v], hups, hcnt⟩
  · exact absurd hst (hb.done k u hin).2.1

/-- A child whose update arrives before its parent's. -/
def childFirst : List Event :=
  deliverOrder 0 stockQuantity 1 [] ++ (deliverOrder 0 stockQuantity 2 [1] ++
    (deliverUpdate 1 stockQuantity ⟨"s_i_id", "1", "9", .update, 2⟩ ++
      deliverUpdate 1 stockQuantity ⟨"s_i_id", "1", "10", .update, 1⟩))

theorem sent_childFirst : sent childFirst =
    [.order stockQuantity (orderIn stockQuantity 1 []), .order stockQuantity (orderIn stockQuantity 2 [1]),
      .update stockQuantity ⟨"s_i_id", "1", "9", .update, 2⟩,
      .update stockQuantity ⟨"s_i_id", "1", "10", .update, 1⟩] := rfl

theorem matched_childFirst : Matched (sent childFirst) where
  exactlyOne k t ha := by
    obtain ⟨od, hod, rfl⟩ := ha
    simp only [sent_childFirst, mem_cons, order.injEq, update.injEq, reduceCtorEq,
      not_mem_nil, or_false, false_or] at hod ⊢
    rcases hod with ⟨rfl, rfl⟩ | ⟨rfl, rfl⟩
    · refine ⟨⟨"s_i_id", "1", "10", .update, 1⟩, ⟨.inr ⟨rfl, rfl⟩, rfl, rfl⟩, ?_⟩
      rintro u ⟨⟨-, rfl⟩ | ⟨-, rfl⟩, -, ht⟩
      · exact absurd ht (by decide)
      · rfl
    · refine ⟨⟨"s_i_id", "1", "9", .update, 2⟩, ⟨.inl ⟨rfl, rfl⟩, rfl, rfl⟩, ?_⟩
      rintro u ⟨⟨-, rfl⟩ | ⟨-, rfl⟩, -, ht⟩
      · rfl
      · exact absurd ht (by decide)
  announced k u hu _ := by
    simp only [sent_childFirst, mem_cons, update.injEq, reduceCtorEq, not_mem_nil,
      or_false, false_or] at hu
    rcases hu with ⟨rfl, rfl⟩ | ⟨rfl, rfl⟩ <;> decide

end Fiss.Olap
