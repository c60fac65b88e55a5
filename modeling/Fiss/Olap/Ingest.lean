import Fiss.Olap.OrderGraph

/-! What is held, what is ingested and how often. `Base` is what every run keeps, whatever arrives and
    whatever the walks over the parents read: an entry of `updateMap` is one received UPDATE, a
    vertex has a record, a status 0 record that expects an update was announced, and an ingested
    update's record has status 1. A record that a read has made expects no update, and it is kept
    when an order comes. On top of it the two guarantees the update path is meant to give: no update
    is lost, and none is applied twice. -/

namespace Fiss.Olap
open Relation List Option

/-! ### What every run keeps -/

structure Base (h : Host) (s : Server) (tr : List Msg) : Prop where
  held : ∀ k t ups, (s.updateMap k).find t = some ups →
    ∃ u, ups = [u] ∧ u.txnId = t ∧ u.opType = .update ∧ Msg.update k u ∈ tr
  record : ∀ k t, (s.orderMap k).isExist t = true → ((s.orderVec k).find t).isSome
  vertex : ∀ k t, statusOf s k t ≠ 0 → (s.orderMap k).isExist t = true
  waits : ∀ k t, upCntOf s k t = 1 → statusOf s k t = 0 → Announced tr k t
  single : h.ReadsOnly (fun _ => True) → ∀ k t, ((s.orderVec k).find t).isSome → upCntOf s k t = 1
  done : ∀ k u, (k, u) ∈ s.ingested → (s.orderMap k).isExist u.txnId = true ∧
    statusOf s k u.txnId ≠ 0 ∧ u.opType = .update ∧ Msg.update k u ∈ tr

variable {h : Host} {s : Server} {tr : List Msg} {k : Slot} {t : TxnId}

theorem base_init : Base h {} [] where
  held k t ups h := by simp at h
  record k t h := by cases h
  vertex k t h := absurd rfl h
  waits k t h := by cases h
  single _ k t h := by cases h
  done k u h := by simp at h

theorem Base.commit_update (hb : Base h s tr)
    (hr : Ready h s k t) : ∃ u, (s.updateMap k).find t = some [u] ∧ u.txnId = t ∧
      u.opType = .update ∧ Msg.update k u ∈ tr ∧ upCntOf s k t = 1 ∧
      (ingestTxn s k t).ingested = s.ingested ++ [(k, u)] := by
  obtain ⟨ups, hups, hcnt⟩ := hr.pending
  obtain ⟨u, rfl, htxn, hop, hmem⟩ := hb.held k t ups hups
  exact ⟨u, hups, htxn, hop, hmem, hcnt, by simp [ingestTxn, hups]⟩

theorem statusOf_recvOrder {k k' : Slot} {od : Order}
    (h : ((s.orderVec k').find t).isSome) : statusOf (recvOrder s k od) k' t = statusOf s k' t := by
  obtain ⟨v, hv⟩ := isSome_iff_exists.mp h
  rw [statusOf, statusOf, find_recvOrder, hv]
  rfl

/-- The record of a transaction after an order: the old one, a new one or none. -/
theorem record_recvOrder (s : Server) (k : Slot) (od : Order) (k' : Slot) (t : TxnId) :
    ((s.orderVec k').find t).isSome ∧
      ((recvOrder s k od).orderVec k').find t = (s.orderVec k').find t ∨
    (k' = k ∧ t = od.txnId ∧ ((recvOrder s k od).orderVec k').find t = some (announcedVertex od)) ∨
    (k' = k ∧ t ∈ od.parentsTid ∧
      ((recvOrder s k od).orderVec k').find t = some placeholderVertex) ∨
    ((recvOrder s k od).orderVec k').find t = none := by
  rw [find_recvOrder]
  cases (s.orderVec k').find t with
  | some v => exact .inl ⟨rfl, rfl⟩
  | none =>
    rw [none_or]
    split
    case isTrue hc => exact .inr (.inl ⟨hc.1, hc.2, rfl⟩)
    case isFalse =>
      split
      case isTrue hc => exact .inr (.inr (.inl ⟨hc.1, hc.2, rfl⟩))
      case isFalse => exact .inr (.inr (.inr rfl))

theorem base_update (k : Slot) (up : Update) (hb : Base h s tr) :
    Base h (recvUpdate s k up).1 (tr ++ [.update k up]) := by
  refine ⟨fun k' t ups hups => ?_, ?_, ?_, ?_, ?_, fun k' u hin => ?_⟩
  · rw [find_recvUpdate] at hups
    split at hups
    case isTrue hc =>
      obtain ⟨rfl, rfl, hop, -⟩ := hc
      exact ⟨up, (some.inj hups).symm, rfl, hop, by simp⟩
    case isFalse =>
      obtain ⟨u, hu, ht, hop, hmem⟩ := hb.held k' t ups hups
      exact ⟨u, hu, ht, hop, mem_append_left _ hmem⟩
  · rw [recvUpdate_orderMap, recvUpdate_orderVec]; exact hb.record
  · simp only [statusOf, recvUpdate_orderMap, recvUpdate_orderVec]; exact hb.vertex
  · simp only [statusOf, upCntOf, recvUpdate_orderVec, announced_snoc_update]; exact hb.waits
  · simp only [upCntOf, recvUpdate_orderVec]; exact hb.single
  · rw [recvUpdate_ingested] at hin
    obtain ⟨hex, hst, hop, hmem⟩ := hb.done k' u hin
    rw [statusOf, recvUpdate_orderMap, recvUpdate_orderVec]
    exact ⟨hex, hst, hop, mem_append_left _ hmem⟩

theorem base_order (k : Slot) (od : Order) (hb : Base h s tr) :
    Base h (recvOrder s k od) (tr ++ [.order k od]) where
  held k' t ups h := by
    obtain ⟨u, hu, ht, hop, hmem⟩ := hb.held k' t ups h
    exact ⟨u, hu, ht, hop, mem_append_left _ hmem⟩
  record k' t h := by
    rw [find_recvOrder]
    cases hf : (s.orderVec k').find t with
    | some v => rfl
    | none =>
      rcases (isExist_recvOrder ..).mp h with hold | ⟨rfl, rfl | hp⟩
      · have hsome := hb.record k' t hold
        rw [hf] at hsome
        cases hsome
      · simp
      · by_cases ht : t = od.txnId <;> simp [ht, hp]
  vertex k' t h := by
    rw [isExist_recvOrder]
    rw [statusOf] at h
    rcases record_recvOrder s k od k' t with ⟨-, hv⟩ | ⟨-, -, hv⟩ | ⟨hk, hp, -⟩ | hv
    · rw [hv] at h; exact .inl (hb.vertex k' t h)
    · rw [hv] at h; exact absurd rfl h
    · exact .inr ⟨hk, .inr hp⟩
    · rw [hv] at h; exact absurd rfl h
  waits k' t hcnt hst := by
    rw [announced_snoc_order]
    rw [statusOf] at hst
    rw [upCntOf] at hcnt
    rcases record_recvOrder s k od k' t with ⟨-, hv⟩ | ⟨hk, ht, -⟩ | ⟨-, -, hv⟩ | hv
    · rw [hv] at hcnt hst; exact .inl (hb.waits k' t hcnt hst)
    · exact .inr ⟨hk, ht.symm⟩
    · -- a placeholder is born with status 1
      rw [hv] at hst; cases hst
    · rw [hv] at hcnt; cases hcnt
  single hr k' t h := by
    rw [upCntOf]
    rcases record_recvOrder s k od k' t with ⟨hsome, hv⟩ | ⟨-, -, hv⟩ | ⟨-, -, hv⟩ | hv
    · rw [hv]; exact hb.single hr k' t hsome
    · rw [hv]; rfl
    · rw [hv]; rfl
    · rw [hv] at h; cases h
  done k' u h := by
    obtain ⟨hex, hst, hop, hmem⟩ := hb.done k' u h
    refine ⟨(isExist_recvOrder ..).mpr (.inl hex), ?_, hop, mem_append_left _ hmem⟩
    rw [statusOf_recvOrder (hb.record k' _ hex)]
    exact hst

theorem base_touch (hb : Base h s tr) {k : Slot} {id : TxnId}
    (hid : h.ReadsOnly (fun _ => True) → (s.orderMap k).isExist id = true) :
    Base h (touch s k id) tr := by
  refine ⟨hb.held, fun k' t hex => isSome_record_touch (hb.record k' t hex) id, ?_, ?_,
    fun hr k' t hsome => ?_, ?_⟩
  · simp only [statusOf_touch]; exact hb.vertex
  · simp only [statusOf_touch, upCntOf_touch]; exact hb.waits
  · rw [upCntOf_touch]
    rw [find_orderVec_touch] at hsome
    split at hsome
    case isTrue hc => rw [hc.1, hc.2]; exact hb.single hr k id (hb.record k id (hid hr))
    case isFalse => exact hb.single hr k' t hsome
  · simp only [statusOf_touch]; exact hb.done

theorem base_commit (hb : Base h s tr) (hr : Ready h s k t) : Base h (ingestTxn s k t) tr := by
  obtain ⟨u', -, htxn, hop, hmem, hcnt, hing⟩ := hb.commit_update hr
  refine ⟨fun k' t' ups hups => ?_, fun k' t' hex => isSome_record_ingestTxn (hb.record k' t' hex) t,
    fun k' t' hst => ?_, fun k' t' hcnt' hst => ?_, fun hreads k' t' hsome => ?_,
    fun k' u hin => ?_⟩
  · rw [find_updateMap_ingestTxn] at hups
    split at hups
    · simp at hups
    · exact hb.held k' t' ups hups
  · rw [statusOf_ingestTxn] at hst
    split at hst
    case isTrue hc => rw [hc.1, hc.2]; exact hr.vertex
    case isFalse => exact hb.vertex k' t' hst
  · rw [statusOf_ingestTxn] at hst
    split at hst
    · cases hst
    · exact hb.waits k' t' (by rwa [upCntOf_ingestTxn] at hcnt') hst
  · rw [upCntOf_ingestTxn]
    rw [find_orderVec_ingestTxn] at hsome
    split at hsome
    case isTrue hc => rw [hc.1, hc.2]; exact hcnt
    case isFalse => exact hb.single hreads k' t' hsome
  · rw [hing, mem_append, mem_singleton, Prod.mk.injEq] at hin
    rw [ingestTxn_orderMap, statusOf_ingestTxn]
    rcases hin with hin | ⟨rfl, rfl⟩
    · obtain ⟨hex, hst, hop, hmem⟩ := hb.done k' u hin
      refine ⟨hex, ?_, hop, hmem⟩
      split
      · exact one_ne_zero
      · exact hst
    · rw [if_pos ⟨rfl, htxn⟩]
      exact ⟨htxn ▸ hr.vertex, one_ne_zero, hop, hmem⟩

theorem base_preserved : Preserved h (fun _ _ _ => True) (Base h) where
  wait _ _ _ _ hb := ⟨hb.held, hb.record, hb.vertex, hb.waits, hb.single, hb.done⟩
  update _ _ k up hb _ := base_update k up hb
  order _ _ k od hb _ := base_order k od hb
  touch _ _ _ _ hid hb := base_touch hb hid
  commit _ _ _ _ hb hr := base_commit hb hr

theorem base_run {es : List Event} {y : Replica} (hr : run (step h) {} es = some y) :
    Base h y.server y.received :=
  base_preserved.at_end base_init hr

/-- An update of `t` in column `k` is ingested. -/
def Ingested (s : Server) (k : Slot) (t : TxnId) : Prop := ∃ e ∈ s.ingested, e.1 = k ∧ e.2.txnId = t

instance (s : Server) (k : Slot) (t : TxnId) : Decidable (Ingested s k t) :=
  inferInstanceAs (Decidable (∃ e ∈ s.ingested, e.1 = k ∧ e.2.txnId = t))

theorem Ingested.mono {s s' : Server} (h : Ingested s k t)
    (hsub : ∀ e ∈ s.ingested, e ∈ s'.ingested) : Ingested s' k t := by
  obtain ⟨e, he, hk, ht⟩ := h
  exact ⟨e, hsub e he, hk, ht⟩

theorem Base.ingested_commit (hb : Base h s tr)
    (hr : Ready h s k t) : Ingested (ingestTxn s k t) k t := by
  obtain ⟨u, -, htxn, -, -, -, hing⟩ := hb.commit_update hr
  exact ⟨(k, u), by simp [hing], rfl, htxn⟩

/-! ### No update is lost -/

/-- The update is in its transaction's entry of `updateMap`. -/
def Held (s : Server) (k : Slot) (up : Update) : Prop :=
  ∃ ups, (s.updateMap k).find up.txnId = some ups ∧ up ∈ ups

/-- Every UPDATE received is held or ingested. -/
def Kept (s : Server) (tr : List Msg) : Prop :=
  ∀ k up, Msg.update k up ∈ tr → up.opType = .update → Held s k up ∨ (k, up) ∈ s.ingested

/-- An UPDATE arrives while nothing else of its transaction is pending in the column, unless it is
    itself pending or ingested. -/
def ArrivesAlone (s : Server) (_ : List Msg) : Msg → Prop
  | .update k up => up.opType = .update →
      (s.updateMap k).find up.txnId = none ∨ Held s k up ∨ (k, up) ∈ s.ingested
  | .order _ _ => True

theorem kept_update {up : Update} (hk : Kept s tr) (hC : ArrivesAlone s tr (.update k up)) :
    Kept (recvUpdate s k up).1 (tr ++ [.update k up]) := by
  intro k' up' hmem hop
  rw [recvUpdate_ingested]
  suffices hold : Held s k' up' ∨ (k', up') ∈ s.ingested ∨
      (k' = k ∧ up' = up ∧ (s.updateMap k).find up.txnId = none) by
    rcases hold with ⟨ups, hups, hin⟩ | hin | ⟨rfl, rfl, hnone⟩
    · refine .inl ⟨ups, ?_, hin⟩
      rw [find_recvUpdate, if_neg]
      · exact hups
      · rintro ⟨rfl, -, -, hnone⟩
        rw [hups] at hnone; simp at hnone
    · exact .inr hin
    · exact .inl ⟨[up'], by rw [find_recvUpdate, if_pos ⟨rfl, rfl, hop, hnone⟩], by simp⟩
  rcases mem_append.mp hmem with hmem | hmem
  · rcases hk k' up' hmem hop with h | h
    · exact .inl h
    · exact .inr (.inl h)
  · obtain ⟨rfl, rfl⟩ := Msg.update.inj (mem_singleton.mp hmem)
    rcases hC hop with h | h | h
    · exact .inr (.inr ⟨rfl, rfl, h⟩)
    · exact .inl h
    · exact .inr (.inl h)

theorem kept_order {od : Order} (hk : Kept s tr) :
    Kept (recvOrder s k od) (tr ++ [.order k od]) := by
  intro k' up hmem hop
  exact hk k' up (by simpa using hmem) hop

theorem kept_commit (hk : Kept s tr) : Kept (ingestTxn s k t) tr := by
  intro k' up hmem hop
  rcases hk k' up hmem hop with ⟨ups, hups, hin⟩ | hin
  · rcases Classical.em (k' = k ∧ up.txnId = t) with ⟨rfl, rfl⟩ | hne
    · refine .inr (mem_append_right _ ?_)
      rw [hups]
      exact mem_map.mpr ⟨up, hin, rfl⟩
    · exact .inl ⟨ups, by rw [find_updateMap_ingestTxn, if_neg hne]; exact hups, hin⟩
  · exact .inr (mem_append_left _ hin)

theorem kept_preserved : Preserved h ArrivesAlone Kept where
  wait _ _ _ _ hk := hk
  touch _ _ _ _ _ hk := hk
  update _ _ _ _ hk hC := kept_update hk hC
  order _ _ _ _ hk _ := kept_order hk
  commit _ _ _ _ hk _ := kept_commit hk

/-- No update is lost in a run exactly when every UPDATE finds nothing else of its transaction
    pending in its column. -/
theorem updates_kept_iff (h : Host) (es : List Event) :
    Throughout (step h) (fun y => Kept y.server y.received) {} es ↔
      Along (step h) (OnRecv ArrivesAlone) {} es := by
  constructor
  · refine along_of_throughout (I := fun _ => True) (fun _ _ _ _ _ => trivial) ?_ trivial
    intro y e y' _ hs hk m hm
    cases m with
    | order k od => trivial
    | update k up =>
      intro hop
      obtain ⟨hsrv, hrec⟩ := step_recv hs hm
      rw [hsrv, hrec] at hk
      rcases hk k up (by simp) hop with ⟨ups, hups, hin⟩ | hin
      · simp only [recv] at hups
        rw [find_recvUpdate] at hups
        split at hups
        case isTrue hc => exact .inl hc.2.2.2
        case isFalse => exact .inr (.inl ⟨ups, hups, hin⟩)
      · simp only [recv] at hin
        rw [recvUpdate_ingested] at hin
        exact .inr (.inr hin)
  · intro hC
    exact kept_preserved.throughout (fun k up hmem => by simp at hmem) hC

/-- Two stock rows of one transaction: the second arrives while the first is pending, and is gone. -/
theorem second_row_lost : ∃ y, run (step (.inOrder 9)) {}
        (deliverUpdate 0 stockQuantity ⟨"s_i_id", "1", "10", .update, 1⟩ ++
          (deliverUpdate 0 stockQuantity ⟨"s_i_id", "2", "20", .update, 1⟩ ++
            deliverOrder 1 stockQuantity 1 [])) = some y ∧
      (∀ i, y.streams i = []) ∧ ¬ Kept y.server y.received ∧
      y.server.ingested = [(stockQuantity, ⟨"s_i_id", "1", "10", .update, 1⟩)] ∧
      (y.server.updateMap stockQuantity).find 1 = none := by
  refine ⟨_, rfl, ?_, fun hk => ?_, by decide, by decide⟩
  · rintro (_ | _ | i) <;> rfl
  · rcases hk stockQuantity ⟨"s_i_id", "2", "20", .update, 1⟩ (by decide) rfl with ⟨ups, hups, -⟩ | hin
    · have hnone : none = some ups := hups
      simp at hnone
    · revert hin; decide

/-! ### No update is applied twice -/

/-- Each update is ingested at most once, and never again after a transaction that depends on it. -/
structure AtMostOnce (s : Server) : Prop where
  once : s.ingested.Nodup
  notAfter : ∀ k u v l1 l2, s.ingested = l1 ++ l2 → (k, u) ∈ l1 → (k, v) ∈ l1 →
    TransGen (s.orderMap k).Edge u.txnId v.txnId → (k, u) ∉ l2

/-- A redelivered UPDATE that was ingested already is filtered: something of its transaction is
    pending in the column when it arrives. -/
def Filtered (s : Server) (_ : List Msg) : Msg → Prop
  | .update k up => up.opType = .update → (k, up) ∈ s.ingested →
      (s.updateMap k).find up.txnId ≠ none
  | .order _ _ => True

instance : ∀ s tr m, Decidable (Filtered s tr m)
  | s, _, .update k up => inferInstanceAs (Decidable (up.opType = .update → (k, up) ∈ s.ingested →
      (s.updateMap k).find up.txnId ≠ none))
  | _, _, .order _ _ => isTrue trivial

/-- What is pending is not ingested, and what is ingested is so once. -/
structure OnceInv (h : Host) (s : Server) (tr : List Msg) : Prop where
  base : Base h s tr
  once : s.ingested.Nodup
  fresh : ∀ k u, (s.updateMap k).find u.txnId = some [u] → (k, u) ∉ s.ingested

theorem onceInv_preserved : Preserved h Filtered (OnceInv h) where
  wait s tr w n hi := ⟨base_preserved.wait s tr w n hi.base, hi.once, hi.fresh⟩
  touch _ _ _ _ hid hi := ⟨base_touch hi.base hid, hi.once, hi.fresh⟩
  order s tr k od hi _ := ⟨base_order k od hi.base, hi.once, hi.fresh⟩
  update s tr k up hi hC := by
    refine ⟨base_update k up hi.base, by rw [recvUpdate_ingested]; exact hi.once, ?_⟩
    intro k' u hf
    rw [recvUpdate_ingested]
    rw [find_recvUpdate] at hf
    split at hf
    case isTrue hc =>
      -- `u` was stored just now, so nothing of its transaction was pending
      obtain ⟨rfl, htxn, hop, hnone⟩ := hc
      obtain rfl : up = u := singleton_inj.mp (some.inj hf)
      exact fun hin => hC hop hin hnone
    case isFalse => exact hi.fresh k' u hf
  commit s tr k t hi hr := by
    obtain ⟨u, hu, htxn, -, -, -, hing⟩ := hi.base.commit_update hr
    have hnew : (k, u) ∉ s.ingested := hi.fresh k u (by rw [htxn]; exact hu)
    refine ⟨base_commit hi.base hr, ?_, fun k' u' hf => ?_⟩
    · rw [hing, nodup_append]
      refine ⟨hi.once, nodup_singleton _, fun a ha b hb hab => ?_⟩
      rw [mem_singleton.mp hb] at hab
      exact hnew (hab ▸ ha)
    · rw [find_updateMap_ingestTxn] at hf
      split at hf
      case isTrue => simp at hf
      case isFalse hne =>
        rw [hing, mem_append, mem_singleton, Prod.mk.injEq, not_or]
        refine ⟨hi.fresh k' u' hf, ?_⟩
        rintro ⟨rfl, rfl⟩
        exact hne ⟨rfl, htxn⟩

/-- In a run in which every redelivery of an ingested UPDATE finds its transaction pending, no
    update is applied twice. -/
theorem applied_at_most_once (h : Host) (es : List Event)
    (hC : Along (step h) (OnRecv Filtered) {} es) :
    Throughout (step h) (fun y => AtMostOnce y.server) {} es := by
  refine throughout_mono (fun y hy => ?_) (onceInv_preserved.throughout
    ⟨base_init, nodup_nil, fun k u _ => not_mem_nil⟩ hC)
  refine ⟨hy.once, fun k u v l1 l2 hl hu _ _ hu2 => ?_⟩
  have hnd := hy.once
  rw [hl, nodup_append] at hnd
  exact hnd.2.2 (k, u) hu (k, u) hu2 rfl

/-- A redelivery while the first copy waits for its order is dropped. -/
theorem pending_redelivery_once : Throughout (step (.inOrder 9)) (fun y => AtMostOnce y.server) {}
      (deliverUpdate 0 stockQuantity ⟨"s_i_id", "1", "10", .update, 1⟩ ++
        (deliverUpdate 0 stockQuantity ⟨"s_i_id", "1", "10", .update, 1⟩ ++
          deliverOrder 1 stockQuantity 1 [])) :=
  applied_at_most_once _ _ (by decide)

/-- A redelivery after the update was applied, and after a transaction that depends on it was: the
    update is applied again, over the newer one. -/
theorem redelivery_applied_again : ∃ y, run (step (.inOrder 9)) {}
        (deliverOrder 0 stockQuantity 1 [] ++ (deliverOrder 0 stockQuantity 2 [1] ++
          (deliverUpdate 1 stockQuantity ⟨"s_i_id", "1", "10", .update, 1⟩ ++
            (deliverUpdate 1 stockQuantity ⟨"s_i_id", "1", "9", .update, 2⟩ ++
              deliverUpdate 1 stockQuantity ⟨"s_i_id", "1", "10", .update, 1⟩)))) = some y ∧
      y.server.ingested = [(stockQuantity, ⟨"s_i_id", "1", "10", .update, 1⟩),
        (stockQuantity, ⟨"s_i_id", "1", "9", .update, 2⟩),
        (stockQuantity, ⟨"s_i_id", "1", "10", .update, 1⟩)] ∧
      (y.server.orderMap stockQuantity).Edge 1 2 ∧ ¬ AtMostOnce y.server := by
  refine ⟨_, rfl, by decide, by decide, fun hm => ?_⟩
  have hnd := hm.once
  revert hnd
  decide

end Fiss.Olap
