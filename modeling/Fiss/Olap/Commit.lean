import Fiss.Olap.Server

/-! What a call of `ApplyUpdateByOrder` can do, whatever the walks over the parents read. The recursion
    is reduced to walks, reads that may leave an empty record, and a list of commits: each ingests
    one transaction that is `Ready`, that is, known to the graph, complete, and with no parent of
    status 0 left if the walks read all parents. `applyUpdateByOrder_spec` is the one fact about the
    recursion the rest of the development uses; `applyUpdateByOrder_returns` is its termination. -/

namespace Fiss.Olap
open Relation List Option Prod

/-! ### One commit -/

@[simp] theorem ingestTxn_orderMap (s : Server) (k : Slot) (t : TxnId) :
    (ingestTxn s k t).orderMap = s.orderMap := rfl

theorem find_updateMap_ingestTxn (s : Server) (k k' : Slot) (t t' : TxnId) :
    ((ingestTxn s k t).updateMap k').find t' =
      if k' = k ∧ t' = t then none else (s.updateMap k').find t' := by
  simp only [ingestTxn, Function.update_apply]
  rcases eq_or_ne k' k with rfl | hk
  · simp [Dict.find_erase]
  · simp [hk]

theorem find_orderVec_ingestTxn (s : Server) (k k' : Slot) (t t' : TxnId) :
    ((ingestTxn s k t).orderVec k').find t' =
      if k' = k ∧ t' = t then some { ((s.orderVec k).find t).getD {} with status := 1 }
      else (s.orderVec k').find t' := by
  simp only [ingestTxn, Function.update_apply]
  rcases eq_or_ne k' k with rfl | hk
  · rcases eq_or_ne t' t with rfl | ht
    · simp [Dict.find_modify, Dict.find_insert]
    · simp [Dict.find_modify, Dict.find_insert, ht]
  · simp [hk]

theorem statusOf_ingestTxn (s : Server) (k k' : Slot) (t t' : TxnId) :
    statusOf (ingestTxn s k t) k' t' = if k' = k ∧ t' = t then 1 else statusOf s k' t' := by
  rw [statusOf, find_orderVec_ingestTxn, apply_ite (fun o : Option OdVertex => (o.getD {}).status)]
  rfl

@[simp] theorem upCntOf_ingestTxn (s : Server) (k k' : Slot) (t t' : TxnId) :
    upCntOf (ingestTxn s k t) k' t' = upCntOf s k' t' := by
  rw [upCntOf, find_orderVec_ingestTxn, apply_ite (fun o : Option OdVertex => (o.getD {}).upCnt)]
  rcases Classical.em (k' = k ∧ t' = t) with ⟨rfl, rfl⟩ | hne
  · rw [if_pos ⟨rfl, rfl⟩]; rfl
  · rw [if_neg hne]; rfl

/-! ### One read -/

theorem find_orderVec_touch (s : Server) (k k' : Slot) (id t : TxnId) :
    ((touch s k id).orderVec k').find t =
      if k' = k ∧ t = id then some (((s.orderVec k).find id).getD {})
      else (s.orderVec k').find t := by
  simp only [touch, Function.update_apply]
  rcases eq_or_ne k' k with rfl | hk
  · simp [Dict.find_insert]
  · simp [hk]

@[simp] theorem statusOf_touch (s : Server) (k k' : Slot) (id t : TxnId) :
    statusOf (touch s k id) k' t = statusOf s k' t := by
  rw [statusOf, find_orderVec_touch]
  split
  · next h => rw [h.1, h.2]; rfl
  · rfl

@[simp] theorem upCntOf_touch (s : Server) (k k' : Slot) (id t : TxnId) :
    upCntOf (touch s k id) k' t = upCntOf s k' t := by
  rw [upCntOf, find_orderVec_touch]
  split
  · next h => rw [h.1, h.2]; rfl
  · rfl

section
variable {s : Server} {k k' : Slot} {t : TxnId} (h : ((s.orderVec k').find t).isSome) (x : TxnId)
include h

theorem isSome_record_ingestTxn : (((ingestTxn s k x).orderVec k').find t).isSome := by
  rw [find_orderVec_ingestTxn]
  split
  · rfl
  · exact h

theorem isSome_record_touch : (((touch s k x).orderVec k').find t).isSome := by
  rw [find_orderVec_touch]
  split
  · rfl
  · exact h

end

/-! ### A commit that has been made -/

/-- Nothing of `t` is left to ingest, and its record and flag say so. -/
structure Settled (s : Server) (k : Slot) (t : TxnId) : Prop where
  pending : ∀ e ∈ (s.updateMap k).entries, e.1 ≠ t
  record : ((s.orderVec k).find t).isSome
  status : ∀ e ∈ (s.orderVec k).entries, e.1 = t → e.2.status = 1
  flag : markWait s.waitlist t k = s.waitlist

theorem ingestTxn_of_settled {s : Server} {k : Slot} {t : TxnId} (h : Settled s k t) :
    ingestTxn s k t = s := by
  have hnone : (s.updateMap k).find t = none := by
    rw [← not_isSome_iff_eq_none, ← Dict.mem_keys]
    exact fun hmem => (List.mem_map.mp hmem).elim fun e he => h.pending e he.1 he.2
  have hpend : (s.updateMap k).erase t = s.updateMap k :=
    congrArg Dict.mk (filter_eq_self.mpr fun e he => decide_eq_true (h.pending e he))
  have hrec : ((s.orderVec k).insert t {}).modify t (fun v => { v with status := 1 }) =
      s.orderVec k := by
    rw [Dict.insert, if_pos h.record]
    refine congrArg Dict.mk ((map_congr_left fun e he => ?_).trans (map_id _))
    split
    · next ht => rw [← h.status e he ht]; rfl
    · rfl
  simp only [ingestTxn, hnone, hpend, hrec, h.flag, getD_none, map_nil, append_nil,
    Function.update_eq_self]

theorem markWait_idem (w : Waitlist) (t : TxnId) (k : Slot) :
    markWait (markWait w t k) t k = markWait w t k :=
  Dict.modify_idem fun _ => Dict.modify_idem fun _ => Dict.modify_idem fun _ => rfl

theorem markWait_comm (w : Waitlist) (t x : TxnId) (k : Slot) :
    markWait (markWait w x k) t k = markWait (markWait w t k) x k :=
  Dict.modify_comm ..

section Settled
variable {s : Server} {k : Slot} {t : TxnId}

theorem settled_ingestTxn (s : Server) (k : Slot) (t : TxnId) : Settled (ingestTxn s k t) k t where
  pending e he := by
    simp only [ingestTxn, Function.update_self, Dict.erase, mem_filter, decide_eq_true_eq] at he
    exact he.2
  record := by rw [find_orderVec_ingestTxn, if_pos ⟨rfl, rfl⟩]; rfl
  status e he ht := by
    simp only [ingestTxn, Function.update_self, Dict.modify, List.mem_map] at he
    obtain ⟨e', -, rfl⟩ := he
    split at ht
    · next h => rw [if_pos h]
    · next h => exact absurd ht h
  flag := markWait_idem ..

theorem Settled.ingestTxn (h : Settled s k t) (x : TxnId) : Settled (ingestTxn s k x) k t where
  pending e he := by
    simp only [Olap.ingestTxn, Function.update_self, Dict.erase, mem_filter] at he
    exact h.pending e he.1
  record := isSome_record_ingestTxn h.record x
  status e he ht := by
    simp only [Olap.ingestTxn, Function.update_self, Dict.modify, List.mem_map] at he
    obtain ⟨e', he', rfl⟩ := he
    split
    · rfl
    · next hx =>
      rw [if_neg hx] at ht
      rcases Dict.mem_entries_insert he' with he' | ⟨-, rfl⟩
      · exact h.status e' he' ht
      · exact absurd rfl hx
  flag := (markWait_comm ..).trans (congrArg (markWait · x k) h.flag)

theorem Settled.touch (h : Settled s k t) (id : TxnId) : Settled (touch s k id) k t where
  pending := h.pending
  record := isSome_record_touch h.record id
  status e he ht := by
    simp only [Olap.touch, Function.update_self] at he
    rcases Dict.mem_entries_insert he with he | ⟨hnone, rfl⟩
    · exact h.status e he ht
    · have hsome := h.record
      rw [← ht, hnone] at hsome
      cases hsome
  flag := h.flag

end Settled

/-! ### The moves of a call -/

/-- Of the ids `known`, the walks over the parents read parents only. -/
def Host.ReadsOnly (h : Host) (known : TxnId → Prop) : Prop :=
  ∀ n ps, ∀ x ∈ h.reads n ps, known x → x ∈ ps

/-- The walks over the parents read every parent. -/
def Host.ReadsAll (h : Host) : Prop := ∀ n ps, ∀ p ∈ ps, p ∈ h.reads n ps

/-- The guards a transaction has passed when its updates are ingested. -/
structure Ready (h : Host) (s : Server) (k : Slot) (t : TxnId) : Prop where
  vertex : (s.orderMap k).isExist t = true
  pending : ∃ ups, (s.updateMap k).find t = some ups ∧ upCntOf s k t = ups.length
  parents : h.ReadsAll → ∀ p, (s.orderMap k).Edge p t → statusOf s k p ≠ 0

/-- `Commits h k s ts s'`: from `s`, the transactions `ts` are ingested in this order, each ready, and
    there are walks and reads in between. -/
inductive Commits (h : Host) (k : Slot) : Server → List TxnId → Server → Prop
  | nil (s : Server) : Commits h k s [] s
  | walk {s s' : Server} {ts : List TxnId} :
      Commits h k { s with walks := s.walks + 1 } ts s' → Commits h k s ts s'
  | touch {s s' : Server} {ts : List TxnId} (id : TxnId) :
      (h.ReadsOnly (fun _ => True) → (s.orderMap k).isExist id = true) →
      Commits h k (touch s k id) ts s' → Commits h k s ts s'
  | cons {s s' : Server} {t : TxnId} {ts : List TxnId} :
      Ready h s k t → Commits h k (ingestTxn s k t) ts s' → Commits h k s (t :: ts) s'

/-- `P` is kept by every move of a call. -/
structure Stable (h : Host) (k : Slot) (P : Server → Prop) : Prop where
  walk : ∀ s, P s → P { s with walks := s.walks + 1 }
  touch : ∀ s id, (h.ReadsOnly (fun _ => True) → (s.orderMap k).isExist id = true) → P s →
    P (touch s k id)
  commit : ∀ s t, P s → Ready h s k t → P (ingestTxn s k t)

namespace Commits
variable {h : Host} {k : Slot} {s s' s'' : Server} {ts us : List TxnId} {t : TxnId}

theorem append (hc : Commits h k s ts s') (hc' : Commits h k s' us s'') :
    Commits h k s (ts ++ us) s'' := by
  induction hc with
  | nil s => exact hc'
  | walk _ ih => exact .walk (ih hc')
  | touch id hid _ ih => exact .touch id hid (ih hc')
  | cons hr _ ih => exact .cons hr (ih hc')

theorem preserves {P : Server → Prop} (hP : Stable h k P) (hc : Commits h k s ts s') (hs : P s) :
    P s' := by
  induction hc with
  | nil s => exact hs
  | walk _ ih => exact ih (hP.walk _ hs)
  | touch id hid _ ih => exact ih (hP.touch _ id hid hs)
  | cons hr _ ih => exact ih (hP.commit _ _ hs hr)

section
variable (hc : Commits h k s ts s')
include hc

theorem orderMap_eq : s'.orderMap = s.orderMap :=
  hc.preserves (P := fun s' => s'.orderMap = s.orderMap)
    ⟨fun _ h => h, fun _ _ _ h => h, fun _ _ h _ => h⟩ rfl

theorem upCntOf_eq : upCntOf s' k t = upCntOf s k t :=
  hc.preserves (P := fun s' => upCntOf s' k t = upCntOf s k t)
    ⟨fun _ h => h, fun _ _ _ h => by rwa [upCntOf_touch], fun _ _ h _ => by rwa [upCntOf_ingestTxn]⟩
    rfl

theorem statusOf_ne_zero (ht : statusOf s k t ≠ 0) : statusOf s' k t ≠ 0 := by
  refine hc.preserves (P := fun s => statusOf s k t ≠ 0)
    ⟨fun _ h => h, fun _ _ _ h => by rwa [statusOf_touch], fun s u hs _ => ?_⟩ ht
  rw [statusOf_ingestTxn]
  split
  · exact one_ne_zero
  · exact hs

theorem find_updateMap_eq (ht : t ∉ ts) : (s'.updateMap k).find t = (s.updateMap k).find t := by
  induction hc with
  | nil s => rfl
  | walk _ ih | touch _ _ _ ih => exact ih ht
  | cons _ _ ih =>
    rw [mem_cons, not_or] at ht
    rw [ih ht.2, find_updateMap_ingestTxn, if_neg fun hc => ht.1 hc.2]

theorem settled_of_mem (ht : t ∈ ts) : Settled s' k t := by
  induction hc with
  | nil s => simp at ht
  | walk _ ih | touch _ _ _ ih => exact ih ht
  | cons _ hrest ih =>
    rcases mem_cons.mp ht with rfl | ht
    · exact hrest.preserves (P := fun s => Settled s k t)
        ⟨fun _ hs => ⟨hs.1, hs.2, hs.3, hs.4⟩, fun _ id _ hs => hs.touch id,
          fun _ x hs _ => hs.ingestTxn x⟩ (settled_ingestTxn ..)
    · exact ih ht

theorem mem_ingested {e : Slot × Update} (he : e ∈ s.ingested) : e ∈ s'.ingested :=
  hc.preserves (P := fun s => e ∈ s.ingested)
    ⟨fun _ h => h, fun _ _ _ h => h, fun _ _ hs _ => mem_append_left _ hs⟩ he

theorem ingested_of_mem {ups : List Update} {u : Update} (ht : t ∈ ts)
    (hups : (s.updateMap k).find t = some ups) (hu : u ∈ ups) : (k, u) ∈ s'.ingested := by
  induction hc with
  | nil s => simp at ht
  | walk _ ih | touch _ _ _ ih => exact ih ht hups
  | @cons s s' x ts _ hrest ih =>
    rcases eq_or_ne t x with rfl | hne
    · refine hrest.mem_ingested (mem_append_right _ ?_)
      rw [hups]
      exact List.mem_map.mpr ⟨u, hu, rfl⟩
    · refine ih ((mem_cons.mp ht).resolve_left hne) ?_
      rw [find_updateMap_ingestTxn, if_neg fun hc => hne hc.2]
      exact hups

/-- What is committed was known, pending and complete before the call. -/
theorem ready_of_mem (ht : t ∈ ts) : (s.orderMap k).isExist t = true ∧
    ∃ ups, (s.updateMap k).find t = some ups ∧ upCntOf s k t = ups.length := by
  induction hc with
  | nil s => simp at ht
  | walk _ ih => exact ih ht
  | touch id _ _ ih =>
    have hready := ih ht
    rw [upCntOf_touch] at hready
    exact hready
  | cons hr _ ih =>
    rcases mem_cons.mp ht with rfl | ht
    · exact ⟨hr.vertex, hr.pending⟩
    · obtain ⟨hex, ups, hups, hcnt⟩ := ih ht
      rw [find_updateMap_ingestTxn] at hups
      split at hups
      · cases hups
      · exact ⟨hex, ups, hups, by rwa [upCntOf_ingestTxn] at hcnt⟩

end

end Commits

/-! ### The recursion as a list of commits -/

/-- What a returning call for `t` did: it committed `ts`, all of them `t` or of status 0 before, and `t`
    among them when it answered `true`. -/
structure Applied (h : Host) (s : Server) (k : Slot) (t : TxnId) (s' : Server) (b : Bool)
    (ts : List TxnId) : Prop where
  commits : Commits h k s ts s'
  status : ∀ x ∈ ts, x = t ∨ statusOf s k x = 0
  applied : b = true → t ∈ ts

variable {h : Host} {k : Slot} {apply : Server → TxnId → Option (Server × Bool)} {g : Graph TxnId}

theorem Settled.statusOf {s : Server} {t : TxnId} (hs : Settled s k t) : statusOf s k t ≠ 0 := by
  obtain ⟨v, hv⟩ := isSome_iff_exists.mp hs.record
  rw [Olap.statusOf, hv, getD_some, hs.status _ (Dict.mem_entries_of_find hv) rfl]
  exact one_ne_zero

/-- The loop over the parents commits transactions of status 0 only, and leaves nothing that it has
    read at status 0 when it goes through. -/
theorem checkParents_spec
    (happly : ∀ s x s' b, apply s x = some (s', b) → ∃ ts, Applied h s k x s' b ts) :
    ∀ (ids : List TxnId) (s s' : Server) (b : Bool),
      (h.ReadsOnly (fun _ => True) → ∀ x ∈ ids, (s.orderMap k).isExist x = true) →
      checkParents k apply ids s = some (s', b) →
      ∃ ts, Commits h k s ts s' ∧ (∀ x ∈ ts, statusOf s k x = 0) ∧
        (b = true → ∀ x ∈ ids, statusOf s' k x ≠ 0)
  | [], s, s', b, _, hc => by
    rw [checkParents, some.injEq, mk.injEq] at hc
    obtain ⟨rfl, rfl⟩ := hc
    exact ⟨[], .nil s, by simp, by simp⟩
  | x :: ids, s, s', b, hids, hc => by
    have hrest := fun hr y hy => hids hr y (mem_cons_of_mem _ hy)
    rw [checkParents] at hc
    split at hc
    case isFalse hst =>
      obtain ⟨ts, hcom, hab, hb⟩ := checkParents_spec happly ids s s' b hrest hc
      exact ⟨ts, hcom, hab, fun hbt => forall_mem_cons.mpr ⟨hcom.statusOf_ne_zero hst, hb hbt⟩⟩
    case isTrue hst =>
      cases ha : apply (touch s k x) x with
      | none => rw [ha] at hc; simp at hc
      | some r =>
        obtain ⟨s1, b1⟩ := r
        obtain ⟨us, happ⟩ := happly _ x s1 b1 ha
        have htouch : Commits h k s us s1 :=
          .touch x (fun hr => hids hr x mem_cons_self) happ.commits
        have hzero : ∀ y ∈ us, statusOf s k y = 0 := fun y hy => by
          rcases happ.status y hy with rfl | h0
          · exact hst
          · rwa [statusOf_touch] at h0
        rw [ha] at hc
        cases b1 with
        | false =>
          rw [some.injEq, mk.injEq] at hc
          obtain ⟨rfl, rfl⟩ := hc
          exact ⟨us, htouch, hzero, by simp⟩
        | true =>
          obtain ⟨ts, hcom, hab, hb⟩ := checkParents_spec happly ids s1 s' b
            (by rw [htouch.orderMap_eq]; exact hrest) hc
          refine ⟨us ++ ts, htouch.append hcom, forall_mem_append.mpr ⟨hzero, fun y hy => ?_⟩,
            fun hbt => forall_mem_cons.mpr ⟨?_, hb hbt⟩⟩
          · by_contra hne
            exact htouch.statusOf_ne_zero hne (hab y hy)
          · exact hcom.statusOf_ne_zero (htouch.settled_of_mem (happ.applied rfl)).statusOf

/-- Every call that returns is a list of commits. -/
theorem applyUpdateByOrder_spec (h : Host) (k : Slot) : ∀ (n : ℕ) (s : Server) (t : TxnId)
    (s' : Server) (b : Bool), applyUpdateByOrder h k n s t = some (s', b) →
    ∃ ts, Applied h s k t s' b ts
  | 0, _, _, _, _, hc => by simp [applyUpdateByOrder] at hc
  | n + 1, s, t, s', b, hc => by
    have hidle : some (s, false) = some (s', b) → ∃ ts, Applied h s k t s' b ts := by
      rintro ⟨⟩
      exact ⟨[], .nil s, by simp, by simp⟩
    rw [applyUpdateByOrder] at hc
    split at hc
    case isTrue => exact hidle hc
    case isFalse hex =>
    split at hc
    case isTrue => exact hidle hc
    case isFalse hcnt =>
    rw [not_or, Bool.not_eq_false] at hex
    obtain ⟨ups, hups⟩ := ne_none_iff_exists'.mp hex.2
    have hcnt' : upCntOf s k t = ups.length := by rw [hups] at hcnt; simpa using hcnt
    rw [triggerCheckParent] at hc
    split at hc
    case isTrue hnil =>
      obtain ⟨rfl, rfl⟩ := mk.inj (some.inj hc)
      refine ⟨[t], .cons ⟨hex.1, ⟨ups, hups, hcnt'⟩, fun _ p hp => ?_⟩ (.nil _), by simp, by simp⟩
      rw [Graph.Edge, hnil] at hp
      exact absurd hp not_mem_nil
    case isFalse =>
      cases hch : checkParents k (applyUpdateByOrder h k n)
        (h.reads s.walks ((s.orderMap k).getParents t)) { s with walks := s.walks + 1 } with
      | none => rw [hch] at hc; simp at hc
      | some r =>
        obtain ⟨s1, b1⟩ := r
        have hids : h.ReadsOnly (fun _ => True) →
            ∀ x ∈ h.reads s.walks ((s.orderMap k).getParents t), (s.orderMap k).isExist x = true :=
          fun hr x hx => Graph.isExist_of_edge_left (hr _ _ x hx trivial)
        obtain ⟨ts, hcom, hab, hb⟩ := checkParents_spec (applyUpdateByOrder_spec h k n) _
          { s with walks := s.walks + 1 } s1 b1 hids hch
        have hwalk : Commits h k s ts s1 := .walk hcom
        rw [hch] at hc
        cases b1 with
        | false =>
          obtain ⟨rfl, rfl⟩ := mk.inj (some.inj hc)
          exact ⟨ts, hwalk, fun x hx => .inr (hab x hx), by simp⟩
        | true =>
          obtain ⟨rfl, rfl⟩ := mk.inj (some.inj hc)
          -- a walk that has come by `t` itself may have committed it
          by_cases htt : t ∈ ts
          · rw [ingestTxn_of_settled (hwalk.settled_of_mem htt)]
            exact ⟨ts, hwalk, fun x hx => .inr (hab x hx), fun _ => htt⟩
          · have hready : Ready h s1 k t := by
              refine ⟨by rw [hwalk.orderMap_eq]; exact hex.1, ⟨ups, ?_, ?_⟩, fun hall p hp => ?_⟩
              · rw [hwalk.find_updateMap_eq htt]; exact hups
              · rw [hwalk.upCntOf_eq]; exact hcnt'
              · rw [hwalk.orderMap_eq] at hp
                exact hb rfl p (hall _ _ p hp)
            refine ⟨ts ++ [t], hwalk.append (.cons hready (.nil _)), fun x hx => ?_, by simp⟩
            exact (mem_append.mp hx).symm.imp mem_singleton.mp (hab x)

/-! ### Termination -/

/-- Every transaction of the column that still has status 0 has its updates waiting. -/
def Supplied (s : Server) (k : Slot) : Prop :=
  ∀ x, (s.orderMap k).isExist x = true → statusOf s k x = 0 →
    ∃ ups, (s.updateMap k).find x = some ups ∧ upCntOf s k x = ups.length

theorem supplied_touch {s : Server} (hs : Supplied s k) (id : TxnId) : Supplied (touch s k id) k := by
  intro x hex hst
  rw [statusOf_touch] at hst
  rw [upCntOf_touch]
  exact hs x hex hst

theorem supplied_ingestTxn {s : Server} (hs : Supplied s k) (t : TxnId) :
    Supplied (ingestTxn s k t) k := by
  intro x hex hst
  rw [statusOf_ingestTxn] at hst
  split at hst
  case isTrue => simp at hst
  case isFalse hne =>
    obtain ⟨ups, hups, hcnt⟩ := hs x hex hst
    exact ⟨ups, by rw [find_updateMap_ingestTxn, if_neg hne]; exact hups,
      by rw [upCntOf_ingestTxn]; exact hcnt⟩

theorem Commits.supplied {s s' : Server} {ts : List TxnId} (hc : Commits h k s ts s')
    (hs : Supplied s k) : Supplied s' k :=
  hc.preserves (P := fun s => Supplied s k)
    ⟨fun _ hs => hs, fun _ id _ hs => supplied_touch hs id, fun _ t hs _ => supplied_ingestTxn hs t⟩ hs

/-- The loop returns if the calls it makes do, and goes through if they all succeed. -/
theorem checkParents_returns {ok : Prop}
    (hspec : ∀ s x s' b, apply s x = some (s', b) → ∃ ts, Commits h k s ts s') :
    ∀ (ids : List TxnId) (s : Server), s.orderMap k = g →
    (∀ x ∈ ids, ∀ s, s.orderMap k = g → ∃ s' b, apply s x = some (s', b) ∧
      (ok → Supplied s k → statusOf s k x = 0 → b = true)) →
    ∃ s' b, checkParents k apply ids s = some (s', b) ∧ (ok → Supplied s k → b = true)
  | [], s, _, _ => ⟨s, true, rfl, fun _ _ => rfl⟩
  | x :: ids, s, hs, hret => by
    have hrest := fun y hy => hret y (mem_cons_of_mem _ hy)
    rw [checkParents]
    split
    case isTrue hst =>
      obtain ⟨s1, b1, ha, hb1⟩ := hret x mem_cons_self (touch s k x) hs
      obtain ⟨ts, hcom⟩ := hspec _ x s1 b1 ha
      have hok := fun hok hsup => hb1 hok (supplied_touch hsup x) (by rwa [statusOf_touch])
      rw [ha]
      cases b1 with
      | false => exact ⟨s1, false, rfl, hok⟩
      | true =>
        have hs1 : s1.orderMap k = g := by rw [hcom.orderMap_eq]; exact hs
        obtain ⟨s2, b2, hc, hb2⟩ := checkParents_returns hspec ids s1 hs1 hrest
        exact ⟨s2, b2, hc, fun h1 h2 => hb2 h1 (hcom.supplied (supplied_touch h2 x))⟩
    case isFalse => exact checkParents_returns hspec ids s hs hrest

/-- The recursion ends when the walks read parents and ids the column does not know: it goes up the
    graph, which has no cycle. Where they read parents only and nothing is missing, it succeeds. -/
theorem applyUpdateByOrder_returns (h : Host) (k : Slot) (g : Graph TxnId) (hg : Acyclic g.Edge)
    (hreads : h.ReadsOnly fun x => g.isExist x = true) :
    ∀ (n : ℕ) (s : Server) (t : TxnId), s.orderMap k = g →
      ancestorCount g.Edge g.vertices t < n → ∃ s' b, applyUpdateByOrder h k n s t = some (s', b) ∧
        (h.ReadsOnly (fun _ => True) → Supplied s k → g.isExist t = true →
          (∃ ups, (s.updateMap k).find t = some ups ∧ upCntOf s k t = ups.length) → b = true)
  | 0, _, _, _, hn => absurd hn (Nat.not_lt_zero _)
  | n + 1, s, t, hs, hn => by
    have hlt : ∀ {p}, g.Edge p t → ancestorCount g.Edge g.vertices p < n := fun hp =>
      (ancestorCount_lt hg hp (Graph.mem_vertices.mpr (Graph.isExist_of_edge_left hp))).trans_le
        (Nat.lt_succ_iff.mp hn)
    rw [applyUpdateByOrder]
    split
    case isTrue hno =>
      refine ⟨s, false, rfl, fun _ _ hex hpend => ?_⟩
      obtain ⟨ups, hups, -⟩ := hpend
      rw [hs, hex, hups] at hno
      simp at hno
    split
    case isTrue hno =>
      refine ⟨s, false, rfl, fun _ _ _ hpend => ?_⟩
      obtain ⟨ups, hups, hcnt⟩ := hpend
      rw [hups, hcnt] at hno
      simp at hno
    rw [triggerCheckParent]
    split
    · exact ⟨_, true, rfl, fun _ _ _ _ => rfl⟩
    next hne =>
    have hret : ∀ x ∈ h.reads s.walks ((s.orderMap k).getParents t), ∀ s, s.orderMap k = g →
        ∃ s' b, applyUpdateByOrder h k n s x = some (s', b) ∧
          (h.ReadsOnly (fun _ => True) → Supplied s k → statusOf s k x = 0 → b = true) := by
      intro x hx s1 hs1
      by_cases hex : g.isExist x = true
      · obtain ⟨s2, b, ha, hb⟩ := applyUpdateByOrder_returns h k g hg hreads n s1 x hs1
          (hlt (hs ▸ hreads _ _ x hx hex))
        exact ⟨s2, b, ha, fun hr hsup hst => hb hr hsup hex (hsup x (hs1 ▸ hex) hst)⟩
      · -- an unknown id is refused, and there is room for that as `t` has a parent
        obtain ⟨p, hp⟩ := exists_mem_of_ne_nil _ hne
        obtain ⟨m, rfl⟩ := Nat.exists_eq_succ_of_ne_zero (Nat.ne_zero_of_lt (hlt (hs ▸ hp)))
        rw [applyUpdateByOrder, hs1, if_pos (.inl (Bool.eq_false_iff.mpr hex))]
        refine ⟨_, _, rfl, fun hr => absurd ?_ hex⟩
        exact hs ▸ Graph.isExist_of_edge_left (hr _ _ x hx trivial)
    have hspec : ∀ s x s' b, applyUpdateByOrder h k n s x = some (s', b) →
        ∃ ts, Commits h k s ts s' := fun s x s' b ha =>
      (applyUpdateByOrder_spec h k n s x s' b ha).imp fun _ happ => happ.commits
    obtain ⟨s1, b, hch, hb⟩ :=
      checkParents_returns hspec _ { s with walks := s.walks + 1 } hs hret
    rw [hch]
    cases b with
    | false => exact ⟨s1, false, rfl, fun hr hsup _ _ => hb hr hsup⟩
    | true => exact ⟨_, true, rfl, fun _ _ _ _ => rfl⟩

end Fiss.Olap
