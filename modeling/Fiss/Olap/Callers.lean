import Fiss.Olap.Ingest
import Fiss.Olap.Waitlist

/-! Who calls `ApplyUpdateByOrder`, and for which transactions. `backOrder` calls it for transactions
    whose order has been received, and so does the query thread, apart from records that a read has
    made, which expect no update; only `backUpdate` calls it for whatever arrived. A transaction that
    is a vertex only because another order names it as a parent has no parents of its own, so that
    call ingests it at once. -/

namespace Fiss.Olap
open Relation List Option QueryPc

/-- The entries the query thread has still to try. -/
def QueryPc.todo : QueryPc → List (TxnId × Slot)
  | .clean todo => todo
  | .prune _ _ todo => todo
  | .start => []
  | .scan _ => []

/-- The transaction has a record, and if the record expects an update its order was received. -/
def Asked (s : Server) (tr : List Msg) (k : Slot) (t : TxnId) : Prop :=
  ((s.orderVec k).find t).isSome ∧ (upCntOf s k t = 1 → Announced tr k t)

/-- The calls that are due other than by `backUpdate`. -/
structure Callers (y : Replica) : Prop where
  orders : ∀ k od, (∃ i, Op.back (.order k od) ∈ y.streams i) → Announced y.received k od.txnId
  waits : AllWait (fun t k => Asked y.server y.received k t) y.server.waitlist
  todo : ∀ q, y.query = some q → ∀ e ∈ q.pc.todo, Asked y.server y.received e.2 e.1

variable {h : Host} {y y' : Replica} {e : Event} {k : Slot} {t : TxnId} {r : Server × List Op}

theorem mem_waiting {s : Server} : t ∈ waiting s k ↔ (s.orderMap k).isExist t = true ∧
      ∃ v, (s.orderVec k).find t = some v ∧ v.status = 0 := by
  rw [waiting, mem_filter, Graph.mem_vertices]
  refine and_congr_right fun _ => ?_
  cases (s.orderVec k).find t <;> simp

theorem announced_preserved : Preserved h (fun _ _ _ => True) (fun _ tr => Announced tr k t) where
  wait _ _ _ _ ha := ha
  update _ _ _ _ ha _ := announced_snoc_update.mpr ha
  order _ _ _ _ ha _ := announced_snoc_order.mpr (.inl ha)
  touch _ _ _ _ _ ha := ha
  commit _ _ _ _ ha _ := ha

theorem asked_preserved : Preserved h (fun _ _ _ => True) (fun s tr => Asked s tr k t) where
  wait _ _ _ _ ha := ha
  update s tr k' up ha _ := by
    rw [Asked, upCntOf, recvUpdate_orderVec, announced_snoc_update]
    exact ha
  order s tr k' od ha _ := by
    obtain ⟨v, hv⟩ := isSome_iff_exists.mp ha.1
    have hsame : ((recvOrder s k' od).orderVec k).find t = (s.orderVec k).find t := by
      rw [find_recvOrder, hv]; rfl
    rw [Asked, upCntOf, hsame]
    exact ⟨ha.1, fun hcnt => announced_snoc_order.mpr (.inl (ha.2 hcnt))⟩
  touch s tr k' id _ ha := ⟨isSome_record_touch ha.1 id, by rw [upCntOf_touch]; exact ha.2⟩
  commit s tr k' x ha _ := ⟨isSome_record_ingestTxn ha.1 x, by rw [upCntOf_ingestTxn]; exact ha.2⟩

theorem Commits.allWait {A : TxnId → Slot → Prop} {s s' : Server} {ts : List TxnId}
    (hc : Commits h k s ts s') (hw : AllWait A s.waitlist) : AllWait A s'.waitlist :=
  hc.preserves (P := fun s => AllWait A s.waitlist)
    ⟨fun _ hs => hs, fun _ _ _ hs => hs, fun _ t hs _ => allWait_markWait hs t k⟩ hw

theorem callers_init : Callers {} where
  orders k od h := by simp at h
  waits := Dict.all_empty
  todo q h := by simp at h

theorem announced_of_next {s : Server} {op : Op} {tr : List Msg} {od : Order}
    (hx : exec h s op = some r) (hmem : Op.back (.order k od) ∈ r.2) :
    Announced (record tr op) k od.txnId := by
  cases op with
  | recv m =>
    cases m with
    | update k' up =>
      obtain rfl := some.inj hx
      dsimp only at hmem
      split at hmem <;> simp at hmem
    | order k' od' =>
      obtain rfl := some.inj hx
      obtain ⟨rfl, rfl⟩ : k = k' ∧ od = od' := by simpa using hmem
      exact ⟨od, by simp [record], rfl⟩
  | back m =>
    rw [exec_back] at hx
    obtain ⟨_, _, rfl⟩ := map_eq_some_iff.mp hx
    simp at hmem

theorem Move.orders {od : Order} (hm : Move h y e y')
    (hod : ∃ i, Op.back (.order k od) ∈ y'.streams i) :
    (∃ i, Op.back (.order k od) ∈ y.streams i) ∨ Announced y'.received k od.txnId := by
  cases hm with
  | arrive _ i q _ =>
    rw [mem_update_streams] at hod
    rw [mem_streams_split _ i]
    refine .inl (hod.imp_left fun hmem => ?_)
    exact (mem_append.mp hmem).resolve_right (by simp)
  | idle | query => exact .inl hod
  | run i op rest r hst hx =>
    rw [mem_update_streams, mem_append] at hod
    rcases hod with (hod | hod) | ⟨j, -, hj⟩
    · exact .inr (announced_of_next hx hod)
    · exact .inl ⟨i, by rw [hst]; exact mem_cons_of_mem _ hod⟩
    · exact .inl ⟨j, hj⟩

theorem allWait_exec {s : Server} {op : Op} {P : TxnId → Slot → Prop}
    (hw : AllWait P s.waitlist) (hx : exec h s op = some r) : AllWait P r.1.waitlist := by
  cases op with
  | recv m =>
    cases m with
    | update k up =>
      obtain rfl := some.inj hx
      rw [recvUpdate_waitlist]
      exact hw
    | order k od => obtain rfl := some.inj hx; exact hw
  | back m =>
    rw [exec_back] at hx
    obtain ⟨⟨s1, b⟩, ha, rfl⟩ := map_eq_some_iff.mp hx
    obtain ⟨ts, happ⟩ := applyUpdateByOrder_spec h m.slot h.depth _ m.txn s1 b ha
    exact happ.commits.allWait hw

theorem Callers.waits_move (hc : Callers y) (hb : Base h y.server y.received) (hm : Move h y e y') :
    AllWait (fun t k => Asked y.server y.received k t) y'.server.waitlist := by
  cases hm with
  | arrive | idle => exact hc.waits
  | run i op rest r _ hx => exact allWait_exec hc.waits hx
  | query q s' q' _ hm =>
    cases hm with
    | scan k ks _ =>
      refine allWait_addWaits hc.waits fun t ht => ?_
      obtain ⟨-, v, hv, hst⟩ := mem_waiting.mp ht
      exact ⟨by rw [hv]; rfl, fun hcnt => hb.waits k t hcnt (by rw [statusOf, hv]; exact hst)⟩
    | call t k todo s1 b _ ha =>
      obtain ⟨ts, happ⟩ := applyUpdateByOrder_spec h k h.depth _ t s' b ha
      exact happ.commits.allWait hc.waits
    | prune t k todo _ => exact allWait_pruneWait hc.waits t k
    | start | scanned | again | finish => exact hc.waits

theorem Callers.todo_move (hc : Callers y) (hm : Move h y e y') {q : QueryThread}
    (hq : y'.query = some q) {x : TxnId × Slot} (hx : x ∈ q.pc.todo) :
    Asked y.server y.received x.2 x.1 := by
  cases hm with
  | arrive _ i q' hq' =>
    rcases hq' q hq with hq | rfl
    · exact hc.todo q hq x hx
    · simp [QueryPc.todo] at hx
  | idle | run => exact hc.todo q hq x hx
  | query q0 s' q' hq0 hm =>
    obtain rfl := some.inj hq
    cases hm with
    | start | scan | finish => simp [QueryPc.todo] at hx
    | scanned | again => exact hc.waits.mem hx
    | call t k todo s1 b hpc _ => exact hc.todo q0 hq0 x (by rw [hpc]; exact mem_cons_of_mem _ hx)
    | prune t k todo hpc => exact hc.todo q0 hq0 x (by rw [hpc]; exact hx)

theorem callers_step (hb : Base h y.server y.received) (hs : step h y e = some y')
    (hc : Callers y) : Callers y' := by
  have hask : ∀ t k, Asked y.server y.received k t → Asked y'.server y'.received k t :=
    fun t k => asked_preserved.kept (fun _ _ => trivial) hs
  have hm := move_of_step hs
  refine ⟨fun k od hod => ?_, (hc.waits_move hb hm).mono hask,
    fun q hq x hx => hask _ _ (hc.todo_move hm hq hx)⟩
  rcases hm.orders hod with hold | hnew
  · exact announced_preserved.kept (fun _ _ => trivial) hs (hc.orders k od hold)
  · exact hnew

/-- What every reachable state has. -/
structure Sound (h : Host) (y : Replica) : Prop where
  graph : GraphInv y.server y.received
  base : Base h y.server y.received
  callers : Callers y

theorem sound_init : Sound h {} := ⟨graphInv_init, base_init, callers_init⟩

theorem sound_step (hy : Sound h y) (hs : step h y e = some y') : Sound h y' where
  graph := graphInv_preserved.kept (fun _ _ => trivial) hs hy.graph
  base := base_preserved.kept (fun _ _ => trivial) hs hy.base
  callers := callers_step hy.base hs hy.callers

/-- However the threads interleave, the graphs have no cycle and are those of the received orders, and
    what is pending or ingested is a received update, unchanged. -/
theorem replica_sound (h : Host) (es : List Event) : Throughout (step h) (Sound h) {} es :=
  throughout_of_inv (fun _ _ _ hy _ hs => sound_step hy hs) sound_init (along_true _ _)

/-! ### Ingest only under a received order -/

/-- No update is ingested whose transaction has no received order in the column. -/
def OnlyAnnounced (y : Replica) : Prop :=
  ∀ e ∈ y.server.ingested, Announced y.received e.1 e.2.txnId

/-- When `backUpdate` runs for a transaction that is a vertex of the column, expects an update and has
    it pending, the transaction is more than a named parent: its order has been received. -/
def BackAnnounced (y : Replica) (e : Event) : Prop :=
  ∀ k up, y.next e = some (.back (.update k up)) → (y.server.orderMap k).isExist up.txnId = true →
    upCntOf y.server k up.txnId = 1 → (y.server.updateMap k).find up.txnId ≠ none →
    Announced y.received k up.txnId

theorem Commits.mem_ingested_cases {tr : List Msg} {s s' : Server} {ts : List TxnId}
    (hc : Commits h k s ts s') (hb : Base h s tr) {e : Slot × Update} (he : e ∈ s'.ingested) :
    e ∈ s.ingested ∨ (e.1 = k ∧ e.2.txnId ∈ ts) := by
  induction hc with
  | nil s => exact .inl he
  | walk _ ih => exact ih (base_preserved.wait _ _ _ _ hb) he
  | touch id hid _ ih => exact ih (base_touch hb hid) he
  | cons hr _ ih =>
    obtain ⟨u, -, htxn, -, -, -, hing⟩ := hb.commit_update hr
    rcases ih (base_commit hb hr) he with hold | ⟨hk, hmem⟩
    · rw [hing, mem_append, mem_singleton] at hold
      rcases hold with hold | rfl
      · exact .inl hold
      · exact .inr ⟨rfl, by rw [htxn]; exact mem_cons_self ..⟩
    · exact .inr ⟨hk, mem_cons_of_mem _ hmem⟩

theorem announced_of_call (hc : Callers y) (hC : BackAnnounced y e) (hcall : y.Calls e k t)
    (hex : (y.server.orderMap k).isExist t = true) (hcnt : upCntOf y.server k t = 1)
    (hpend : (y.server.updateMap k).find t ≠ none) : Announced y.received k t := by
  rcases hcall with ⟨m, hm, rfl, rfl⟩ | ⟨-, q, todo, hq, hpc⟩
  · cases m with
    | update k up => exact hC k up hm hex hcnt hpend
    | order k od =>
      refine hc.orders k od ?_
      cases e with
      | run i => exact ⟨i, mem_of_mem_head? hm⟩
      | order i req | update i req | query => simp [Replica.next] at hm
  · exact (hc.todo q hq (t, k) (by rw [hpc]; exact mem_cons_self ..)).2 hcnt

theorem onlyAnnounced_step (hy : Sound h y)
    (hC : BackAnnounced y e) (hs : step h y e = some y') (ho : OnlyAnnounced y) :
    OnlyAnnounced y' := by
  intro x hx
  rcases step_cases hs with ⟨w, hw, hr⟩ | ⟨m, -, hw, hr⟩ | ⟨k, t, b, hcall, ha, hr⟩
  · rw [hr]
    rw [hw] at hx
    exact ho x hx
  · rw [hr]
    have hold : x ∈ y.server.ingested := by
      rw [hw] at hx
      cases m with
      | update k up => rwa [recv, recvUpdate_ingested] at hx
      | order k od => exact hx
    exact (ho x hold).mono fun m hm => mem_append_left _ hm
  · rw [hr]
    obtain ⟨ts, happ⟩ := applyUpdateByOrder_spec h k h.depth _ t _ b ha
    rcases happ.commits.mem_ingested_cases hy.base hx with hold | ⟨rfl, hmem⟩
    · exact ho x hold
    · obtain ⟨hex, ups, hups, hcnt⟩ := happ.commits.ready_of_mem hmem
      obtain ⟨u, rfl, -⟩ := hy.base.held _ _ ups hups
      rcases happ.status _ hmem with heq | hst
      · rw [heq] at hups hex hcnt ⊢
        exact announced_of_call hy.callers hC hcall hex hcnt (by rw [hups]; exact some_ne_none _)
      · exact hy.base.waits _ _ hcnt hst

theorem unannounced_ingested {s s' : Server} {tr : List Msg} {b : Bool} (hgi : GraphInv s tr)
    (hb : Base h s tr) (hex : (s.orderMap k).isExist t = true) (hcnt : upCntOf s k t = 1)
    (hpend : (s.updateMap k).find t ≠ none) (hno : ¬ Announced tr k t)
    (ha : applyUpdateByOrder h k h.depth s t = some (s', b)) : Ingested s' k t := by
  obtain ⟨ups, hups⟩ := ne_none_iff_exists'.mp hpend
  obtain ⟨u, rfl, htxn, -⟩ := hb.held k t ups hups
  have hnil : (s.orderMap k).getParents t = [] := by
    refine eq_nil_iff_forall_not_mem.mpr fun p hp => hno ?_
    obtain ⟨od, hod, ht, -⟩ := hgi.edge k p t hp
    exact ⟨od, hod, ht⟩
  cases hd : h.depth with
  | zero => rw [hd] at ha; simp [applyUpdateByOrder] at ha
  | succ n =>
    rw [hd, applyUpdateByOrder, hex, hups, if_neg (by simp), getD_some, hcnt,
      if_neg (by simp), triggerCheckParent, if_pos hnil] at ha
    obtain ⟨rfl, -⟩ := Prod.mk.inj (some.inj ha)
    exact ⟨(k, u), by simp [ingestTxn, hups], rfl, htxn⟩

/-- In a run updates are ingested under a received order only, exactly when `backUpdate` never runs
    for a pending transaction that the column knows only as another's parent. -/
theorem ingested_only_announced_iff (h : Host) (es : List Event) :
    Throughout (step h) OnlyAnnounced {} es ↔ Along (step h) BackAnnounced {} es := by
  constructor
  · refine along_of_throughout (I := Sound h) (fun _ _ _ hy hs => sound_step hy hs) ?_ sound_init
    intro y e y' hy hs ho k up hm hex hcnt hpend
    by_contra hno
    obtain ⟨⟨b, ha⟩, hrec⟩ := step_back hs hm
    obtain ⟨x, hx, hk, ht⟩ := unannounced_ingested hy.graph hy.base hex hcnt hpend hno ha
    have hann := ho x hx
    rw [hrec, hk, ht] at hann
    exact hno hann
  · intro hC
    have hboth : Throughout (step h) (fun y => Sound h y ∧ OnlyAnnounced y) {} es :=
      throughout_of_inv (fun _ _ _ hy hCe hs =>
        ⟨sound_step hy.1 hs, onlyAnnounced_step hy.1 hCe hs hy.2⟩)
        ⟨sound_init, forall_mem_nil _⟩ hC
    exact throughout_mono (fun _ hy => hy.2) hboth

/-- Transaction 1 is only named as a parent, and its update is ingested. -/
theorem named_parent_ingested :
    ∃ y, run (step (.inOrder 9)) {} (deliverOrder 0 stockQuantity 2 [1] ++
        deliverUpdate 1 stockQuantity ⟨"s_i_id", "1", "10", .update, 1⟩) = some y ∧
      y.server.ingested = [(stockQuantity, ⟨"s_i_id", "1", "10", .update, 1⟩)] ∧
      ¬ Announced y.received stockQuantity 1 ∧ ¬ OnlyAnnounced y := by
  refine ⟨_, rfl, by decide, by decide, fun ho => ?_⟩
  have hann := ho (stockQuantity, ⟨"s_i_id", "1", "10", .update, 1⟩) (by decide)
  revert hann
  decide

end Fiss.Olap
