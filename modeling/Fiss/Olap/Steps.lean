import Fiss.Olap.Commit
import Fiss.Olap.Threads

/-! What one event of the replica does to the maps, said once. `step_cases` reduces an event to a
    change of the waitlist, one `recv`, or one call of `ApplyUpdateByOrder`; `Preserved` is the list
    of facts that make a statement about the maps and the received messages hold in every state of
    a run. -/

namespace Fiss.Olap
open Relation List Function Prod Dict
open Option (some.inj map_eq_some_iff)

/-! ### An order in one column -/

theorem edge_addParent (t : TxnId) (gv : Graph TxnId × Dict TxnId OdVertex) (p a b : TxnId) :
    (addParent t gv p).1.Edge a b ↔
      gv.1.Edge a b ∨ (a = p ∧ b = t ∧ ¬ (TransGen gv.1.Edge t p ∧ t ≠ p)) := by
  have hrel : (gv.1.addVertex p).Edge = gv.1.Edge := by
    funext x y; exact propext (Graph.edge_addVertex ..)
  have hex : (gv.1.addVertex p).parentExist t p = true ↔ TransGen gv.1.Edge t p ∧ t ≠ p := by
    rw [← hrel]; exact Graph.parentExist_iff
  unfold addParent
  rcases Classical.em (TransGen gv.1.Edge t p ∧ t ≠ p) with hc | hc
  · simp only [hex.mpr hc, if_true, Graph.edge_addVertex]
    exact ⟨.inl, fun h => h.elim id fun h' => absurd hc h'.2.2⟩
  · have hf : (gv.1.addVertex p).parentExist t p = false := by
      rw [Bool.eq_false_iff]; exact fun h => hc (hex.mp h)
    simp only [hf, Bool.false_eq_true, if_false, Graph.edge_addEdge, Graph.edge_addVertex]
    exact or_congr_right ⟨fun h => ⟨h.1, h.2, hc⟩, fun h => ⟨h.1, h.2.1⟩⟩

theorem isExist_addParent (t : TxnId) (gv : Graph TxnId × Dict TxnId OdVertex) (p x : TxnId)
    (ht : gv.1.isExist t = true) :
    (addParent t gv p).1.isExist x = true ↔ gv.1.isExist x = true ∨ x = p := by
  unfold addParent
  dsimp only
  split
  · exact Graph.isExist_addVertex ..
  · rw [Graph.isExist_addEdge, Graph.isExist_addVertex]
    constructor
    · rintro (h | rfl | rfl)
      · exact h
      · exact .inr rfl
      · exact .inl ht
    · exact .inl

theorem layered_addParent {t : TxnId} {gv : Graph TxnId × Dict TxnId OdVertex} (p : TxnId)
    (hg : Layered gv.1.Edge) : Layered (addParent t gv p).1.Edge := by
  rcases Classical.em (TransGen gv.1.Edge t p ∧ t ≠ p) with hc | hc
  · have hrel : (addParent t gv p).1.Edge = gv.1.Edge := by
      funext a b
      refine propext ((edge_addParent t gv p a b).trans ⟨?_, .inl⟩)
      exact fun h => h.elim id fun h' => absurd hc h'.2.2
    rw [hrel]; exact hg
  · have hrel : (addParent t gv p).1.Edge = AddEdge gv.1.Edge p t := by
      funext a b
      refine propext ((edge_addParent t gv p a b).trans (or_congr_right ?_))
      exact ⟨fun h => ⟨h.1, h.2.1⟩, fun h => ⟨h.1, h.2, hc⟩⟩
    rw [hrel]
    refine layered_addEdge hg fun htp => ?_
    by_contra hne
    rcases reflTransGen_iff_eq_or_transGen.mp htp with rfl | htp
    · exact hne rfl
    · exact hc ⟨htp, hne⟩

section Fold
variable (t : TxnId)

theorem isExist_addParents : ∀ (ps : List TxnId) (gv : Graph TxnId × Dict TxnId OdVertex)
    (x : TxnId), gv.1.isExist t = true →
    ((ps.foldl (addParent t) gv).1.isExist x = true ↔ gv.1.isExist x = true ∨ x ∈ ps)
  | [], _, _, _ => by simp
  | p :: ps, gv, x, ht => by
    have ht' : (addParent t gv p).1.isExist t = true := (isExist_addParent t gv p t ht).mpr (.inl ht)
    rw [foldl_cons, isExist_addParents ps _ x ht', isExist_addParent t gv p x ht, mem_cons,
      or_assoc]

theorem layered_addParents : ∀ (ps : List TxnId) (gv : Graph TxnId × Dict TxnId OdVertex),
    Layered gv.1.Edge → Layered (ps.foldl (addParent t) gv).1.Edge
  | [], _, hg => hg
  | p :: ps, _, hg => layered_addParents ps _ (layered_addParent p hg)

theorem edge_addParents_mono : ∀ (ps : List TxnId) (gv : Graph TxnId × Dict TxnId OdVertex)
    {a b : TxnId}, gv.1.Edge a b → (ps.foldl (addParent t) gv).1.Edge a b
  | [], _, _, _, h => h
  | p :: ps, gv, a, b, h => edge_addParents_mono ps _ ((edge_addParent t gv p a b).mpr (.inl h))

theorem edge_addParents_sub : ∀ (ps : List TxnId) (gv : Graph TxnId × Dict TxnId OdVertex)
    {a b : TxnId}, (ps.foldl (addParent t) gv).1.Edge a b → gv.1.Edge a b ∨ (a ∈ ps ∧ b = t)
  | [], _, _, _, h => .inl h
  | p :: ps, gv, a, b, h => by
    rcases edge_addParents_sub ps _ h with h | ⟨ha, hb⟩
    · rcases (edge_addParent t gv p a b).mp h with h | ⟨rfl, rfl, _⟩
      · exact .inl h
      · exact .inr ⟨mem_cons_self .., rfl⟩
    · exact .inr ⟨mem_cons_of_mem _ ha, hb⟩

theorem edge_addParents_of_acyclic {r : TxnId → TxnId → Prop} (hr : Acyclic r) :
    ∀ (ps : List TxnId) (gv : Graph TxnId × Dict TxnId OdVertex), (∀ a b, gv.1.Edge a b → r a b) →
    (∀ p ∈ ps, r p t) → ∀ p ∈ ps, (ps.foldl (addParent t) gv).1.Edge p t
  | [], _, _, _, p, hp => by simp at hp
  | q :: ps, gv, hg, hps, p, hp => by
    have hqt : r q t := hps q (mem_cons_self ..)
    have hclear : ¬ (TransGen gv.1.Edge t q ∧ t ≠ q) :=
      fun hc => hr t ((TransGen.mono hg _ _ hc.1).tail hqt)
    rcases mem_cons.mp hp with rfl | hp
    · exact edge_addParents_mono t ps _ ((edge_addParent t gv p p t).mpr (.inr ⟨rfl, rfl, hclear⟩))
    · refine edge_addParents_of_acyclic hr ps _ ?_ (fun x hx => hps x (mem_cons_of_mem _ hx)) p hp
      intro a b hab
      rcases (edge_addParent t gv q a b).mp hab with h | ⟨rfl, rfl, _⟩
      · exact hg a b h
      · exact hqt

theorem find_addParents : ∀ (ps : List TxnId) (gv : Graph TxnId × Dict TxnId OdVertex) (x : TxnId),
    (ps.foldl (addParent t) gv).2.find x =
      (gv.2.find x).or (if x ∈ ps then some placeholderVertex else none)
  | [], _, _ => by simp
  | p :: ps, gv, x => by
    rw [foldl_cons, find_addParents ps _ x]
    simp only [addParent, find_insert, mem_cons]
    rcases eq_or_ne x p with rfl | hx
    · cases gv.2.find x <;> simp
    · simp [hx]

end Fold

theorem isExist_recvOrder (s : Server) (k : Slot) (od : Order) (k' : Slot) (x : TxnId) :
    ((recvOrder s k od).orderMap k').isExist x = true ↔ (s.orderMap k').isExist x = true ∨
      (k' = k ∧ (x = od.txnId ∨ x ∈ od.parentsTid)) := by
  simp only [recvOrder, update_apply]
  rcases eq_or_ne k' k with rfl | hk
  · have ht : ((s.orderMap k').addVertex od.txnId).isExist od.txnId = true :=
      (Graph.isExist_addVertex ..).mpr (.inr rfl)
    rw [if_pos rfl, addOrder, isExist_addParents _ _ _ _ ht, Graph.isExist_addVertex]
    simp [or_assoc]
  · simp [hk]

theorem find_recvOrder (s : Server) (k : Slot) (od : Order) (k' : Slot) (x : TxnId) :
    ((recvOrder s k od).orderVec k').find x = ((s.orderVec k').find x).or
      (if k' = k ∧ x = od.txnId then some (announcedVertex od)
       else if k' = k ∧ x ∈ od.parentsTid then some placeholderVertex else none) := by
  simp only [recvOrder, update_apply]
  rcases eq_or_ne k' k with rfl | hk
  · rw [if_pos rfl, addOrder, find_addParents, find_insert]
    rcases eq_or_ne x od.txnId with rfl | hx
    · cases (s.orderVec k').find od.txnId <;> simp
    · simp [hx]
  · simp [hk]

variable {s : Server}

theorem layered_recvOrder (k : Slot) (od : Order) (k' : Slot)
    (hs : Layered (s.orderMap k').Edge) : Layered ((recvOrder s k od).orderMap k').Edge := by
  simp only [recvOrder, update_apply]
  rcases eq_or_ne k' k with rfl | hk
  · rw [if_pos rfl]
    refine layered_addParents _ _ _ ?_
    have hrel : ((s.orderMap k').addVertex od.txnId).Edge = (s.orderMap k').Edge := by
      funext x y; exact propext (Graph.edge_addVertex ..)
    rw [hrel]; exact hs
  · rw [if_neg hk]; exact hs

theorem edge_recvOrder_mono (k : Slot) (od : Order) {k' : Slot} {a b : TxnId}
    (h : (s.orderMap k').Edge a b) : ((recvOrder s k od).orderMap k').Edge a b := by
  simp only [recvOrder, update_apply]
  rcases eq_or_ne k' k with rfl | hk
  · rw [if_pos rfl]
    exact edge_addParents_mono _ _ _ ((Graph.edge_addVertex ..).mpr h)
  · rw [if_neg hk]; exact h

theorem edge_recvOrder_sub {k : Slot} {od : Order} {k' : Slot} {a b : TxnId}
    (h : ((recvOrder s k od).orderMap k').Edge a b) :
    (s.orderMap k').Edge a b ∨ (k' = k ∧ a ∈ od.parentsTid ∧ b = od.txnId) := by
  simp only [recvOrder, update_apply] at h
  rcases eq_or_ne k' k with rfl | hk
  · rw [if_pos rfl] at h
    rcases edge_addParents_sub _ _ _ h with h | ⟨ha, hb⟩
    · exact .inl ((Graph.edge_addVertex ..).mp h)
    · exact .inr ⟨rfl, ha, hb⟩
  · rw [if_neg hk] at h; exact .inl h

theorem edge_recvOrder_of_acyclic {k : Slot} {od : Order} {r : TxnId → TxnId → Prop}
    (hr : Acyclic r) (hs : ∀ a b, (s.orderMap k).Edge a b → r a b)
    (hod : ∀ p ∈ od.parentsTid, r p od.txnId) {p : TxnId} (hp : p ∈ od.parentsTid) :
    ((recvOrder s k od).orderMap k).Edge p od.txnId := by
  simp only [recvOrder, update_self]
  refine edge_addParents_of_acyclic _ hr _ _ (fun a b hab => ?_) hod p hp
  exact hs a b ((Graph.edge_addVertex ..).mp hab)

/-! ### An update in one column -/

theorem recvUpdate_eq (s : Server) (k : Slot) (up : Update) :
    ∃ um, (recvUpdate s k up).1 = { s with updateMap := um } := by
  rw [recvUpdate]
  split
  · split
    · exact ⟨_, rfl⟩
    · exact ⟨_, rfl⟩
  · exact ⟨_, rfl⟩
  · exact ⟨_, rfl⟩

section RecvUpdate
variable (s : Server) (k : Slot) (up : Update)

@[simp] theorem recvUpdate_orderMap : (recvUpdate s k up).1.orderMap = s.orderMap := by
  obtain ⟨um, h⟩ := recvUpdate_eq s k up
  rw [h]

@[simp] theorem recvUpdate_orderVec : (recvUpdate s k up).1.orderVec = s.orderVec := by
  obtain ⟨um, h⟩ := recvUpdate_eq s k up
  rw [h]

@[simp] theorem recvUpdate_ingested : (recvUpdate s k up).1.ingested = s.ingested := by
  obtain ⟨um, h⟩ := recvUpdate_eq s k up
  rw [h]

@[simp] theorem recvUpdate_waitlist : (recvUpdate s k up).1.waitlist = s.waitlist := by
  obtain ⟨um, h⟩ := recvUpdate_eq s k up
  rw [h]

end RecvUpdate

theorem find_recvUpdate (s : Server) (k : Slot) (up : Update) (k' : Slot) (t : TxnId) :
    ((recvUpdate s k up).1.updateMap k').find t =
      if k' = k ∧ t = up.txnId ∧ up.opType = .update ∧ (s.updateMap k).find t = none then some [up]
      else (s.updateMap k').find t := by
  unfold recvUpdate
  cases hop : up.opType with
  | insert | remove => simp
  | update =>
    dsimp only
    split
    case isTrue hf =>
      obtain ⟨ups, hups⟩ := Option.isSome_iff_exists.mp hf
      rw [if_neg]
      rintro ⟨-, rfl, -, hnone⟩
      rw [hups] at hnone; simp at hnone
    case isFalse hf =>
      rw [Option.not_isSome_iff_eq_none] at hf
      simp only [update_apply]
      rcases eq_or_ne k' k with rfl | hk
      · rw [if_pos rfl, find_insert, hf]
        rcases eq_or_ne t up.txnId with rfl | ht
        · simp [hf]
        · simp [ht]
      · simp [hk]

/-! ### The query thread -/

/-- The moves of the query thread, one for each position. -/
inductive QueryMove (h : Host) (s : Server) (q : QueryThread) : Server → QueryThread → Prop
  | start : q.pc = .start → QueryMove h s q s { q with
      pc := .scan (slotsOf (scanCols q.count))
      due := waitingIn s (slotsOf (queryCols (q.count % 22 + 1))) }
  | scan (k : Slot) (ks : List Slot) : q.pc = .scan (k :: ks) →
      QueryMove h s q { s with waitlist := (waiting s k).foldl (addWait k) s.waitlist }
        { q with pc := .scan ks, due := q.due ++ waitingIn s [k] }
  | scanned : q.pc = .scan [] → QueryMove h s q s { q with pc := .clean (waitEntries s.waitlist) }
  | call (t : TxnId) (k : Slot) (todo : List (TxnId × Slot)) (s' : Server) (b : Bool) :
      q.pc = .clean ((t, k) :: todo) → applyUpdateByOrder h k h.depth s t = some (s', b) →
      QueryMove h s q s' { q with pc := .prune t k todo }
  | prune (t : TxnId) (k : Slot) (todo : List (TxnId × Slot)) : q.pc = .prune t k todo →
      QueryMove h s q { s with waitlist := pruneWait s.waitlist t k } { q with pc := .clean todo }
  | again : q.pc = .clean [] → s.waitlist.isEmpty = false →
      QueryMove h s q s { q with pc := .clean (waitEntries s.waitlist) }
  | finish : q.pc = .clean [] → s.waitlist.isEmpty = true →
      QueryMove h s q s { count := q.count + 1, pc := .start, due := [] }

variable {h : Host}

theorem queryMove_of_queryStep {s s' : Server} {q q' : QueryThread}
    (hq : queryStep h s q = some (s', q')) : QueryMove h s q s' q' := by
  unfold queryStep at hq
  split at hq
  case h_1 hpc => obtain ⟨rfl, rfl⟩ := mk.inj (some.inj hq); exact .start hpc
  case h_2 hpc => obtain ⟨rfl, rfl⟩ := mk.inj (some.inj hq); exact .scanned hpc
  case h_3 k ks hpc => obtain ⟨rfl, rfl⟩ := mk.inj (some.inj hq); exact .scan k ks hpc
  case h_4 t k todo hpc =>
    obtain ⟨⟨s1, b⟩, ha, hr⟩ := map_eq_some_iff.mp hq
    obtain ⟨rfl, rfl⟩ := mk.inj hr
    exact .call t k todo s1 b hpc ha
  case h_5 t k todo hpc =>
    obtain ⟨rfl, rfl⟩ := mk.inj (some.inj hq)
    exact .prune t k todo hpc
  case h_6 hpc =>
    split at hq
    case isTrue he => obtain ⟨rfl, rfl⟩ := mk.inj (some.inj hq); exact .finish hpc he
    case isFalse he =>
      obtain ⟨rfl, rfl⟩ := mk.inj (some.inj hq)
      exact .again hpc (Bool.eq_false_iff.mpr he)

/-! ### One event -/

/-- The event makes a thread call `ApplyUpdateByOrder` for `t` in column `k`. -/
def Replica.Calls (y : Replica) (e : Event) (k : Slot) (t : TxnId) : Prop :=
  (∃ m, y.next e = some (.back m) ∧ m.slot = k ∧ m.txn = t) ∨
    (e = .query ∧ ∃ q todo, y.query = some q ∧ q.pc = .clean ((t, k) :: todo))

theorem exec_back (h : Host) (s : Server) (m : Msg) : exec h s (.back m) =
    (applyUpdateByOrder h m.slot h.depth s m.txn).map fun r => (r.1, []) := by
  cases m with
  | update k up | order k od => exact Option.map_map ..

variable {y y' : Replica} {e : Event}

theorem step_recv {m : Msg} (hs : step h y e = some y') (hm : y.next e = some (.recv m)) :
    y'.server = recv y.server m ∧ y'.received = y.received ++ [m] := by
  cases e with
  | run i =>
    obtain ⟨rest, hq⟩ := head?_eq_some_iff.mp hm
    simp only [step, hq] at hs
    obtain ⟨r, hr, rfl⟩ := map_eq_some_iff.mp hs
    cases m with
    | update k up | order k od => obtain rfl := some.inj hr; exact ⟨rfl, rfl⟩
  | order i req | update i req | query => simp [Replica.next] at hm

theorem step_back {m : Msg} (hs : step h y e = some y') (hm : y.next e = some (.back m)) :
    (∃ b, applyUpdateByOrder h m.slot h.depth y.server m.txn = some (y'.server, b)) ∧
      y'.received = y.received := by
  cases e with
  | run i =>
    obtain ⟨rest, hq⟩ := head?_eq_some_iff.mp hm
    simp only [step, hq] at hs
    obtain ⟨r, hr, rfl⟩ := map_eq_some_iff.mp hs
    rw [exec_back] at hr
    obtain ⟨⟨s1, b⟩, ha, rfl⟩ := map_eq_some_iff.mp hr
    exact ⟨⟨b, ha⟩, rfl⟩
  | order i req | update i req | query => simp [Replica.next] at hm

/-- The moves of the replica: a request arrives, a thread has nothing to do, a handler runs its next
    section, or the query thread moves. -/
inductive Move (h : Host) (y : Replica) : Event → Replica → Prop
  | arrive (e : Event) (i : ℕ) (q : Option QueryThread) :
      (∀ q', q = some q' → y.query = some q' ∨ q' = {}) → Move h y e
        { y with streams := update y.streams i (y.streams i ++ e.parts.map .recv), query := q }
  | idle (e : Event) : e.parts = [] → Move h y e y
  | run (i : ℕ) (op : Op) (rest : List Op) (r : Server × List Op) : y.streams i = op :: rest →
      exec h y.server op = some r → Move h y (.run i) { y with
        server := r.1
        streams := update y.streams i (r.2 ++ rest)
        received := record y.received op }
  | query (q : QueryThread) (s' : Server) (q' : QueryThread) : y.query = some q →
      QueryMove h y.server q s' q' → Move h y .query { y with server := s', query := some q' }

theorem move_of_step (hs : step h y e = some y') : Move h y e y' := by
  cases e with
  | order i req => obtain rfl := some.inj hs; exact .arrive (.order i req) i _ fun _ => .inl
  | update i req =>
    obtain rfl := some.inj hs
    refine .arrive (.update i req) i _ fun q' hq' => ?_
    cases hq : y.query with
    | none => rw [hq] at hq'; exact .inr (some.inj hq').symm
    | some q => rw [hq] at hq'; exact .inl hq'
  | run i =>
    cases hst : y.streams i with
    | nil => simp only [step, hst] at hs; exact some.inj hs ▸ .idle _ rfl
    | cons op rest =>
      simp only [step, hst] at hs
      obtain ⟨r, hr, rfl⟩ := map_eq_some_iff.mp hs
      exact .run i op rest r hst hr
  | query =>
    cases hq : y.query with
    | none => simp only [step, hq] at hs; exact some.inj hs ▸ .idle _ rfl
    | some q =>
      simp only [step, hq] at hs
      obtain ⟨r, hr, rfl⟩ := map_eq_some_iff.mp hs
      exact .query q _ _ hq (queryMove_of_queryStep hr)

theorem step_cases (hs : step h y e = some y') :
    (∃ w, y'.server = { y.server with waitlist := w } ∧ y'.received = y.received) ∨
    (∃ m, y.next e = some (.recv m) ∧ y'.server = recv y.server m ∧
      y'.received = y.received ++ [m]) ∨
    (∃ k t b, y.Calls e k t ∧ applyUpdateByOrder h k h.depth y.server t = some (y'.server, b) ∧
      y'.received = y.received) := by
  cases move_of_step hs with
  | arrive _ i q _ | idle => exact .inl ⟨_, rfl, rfl⟩
  | run i op rest r hst hr =>
    have hnext : y.next (.run i) = some op := by simp [Replica.next, hst]
    cases op with
    | recv m => exact .inr (.inl ⟨m, hnext, step_recv hs hnext⟩)
    | back m =>
      obtain ⟨⟨b, ha⟩, hrec⟩ := step_back hs hnext
      exact .inr (.inr ⟨m.slot, m.txn, b, .inl ⟨m, hnext, rfl, rfl⟩, ha, hrec⟩)
  | query q s' q' hq hm =>
    cases hm with
    | call t k todo _ b hpc ha =>
      exact .inr (.inr ⟨k, t, b, .inr ⟨rfl, q, todo, hq, hpc⟩, ha, rfl⟩)
    | _ => exact .inl ⟨_, rfl, rfl⟩

/-! ### The invariant rule -/

/-- Conditions on a received part, read on the state before its `recv` section. -/
def OnRecv (C : Server → List Msg → Msg → Prop) (y : Replica) (e : Event) : Prop :=
  ∀ m, y.next e = some (.recv m) → C y.server y.received m

instance {C : Server → List Msg → Msg → Prop} [∀ s tr m, Decidable (C s tr m)] (y : Replica)
    (e : Event) : Decidable (OnRecv C y e) :=
  match h : y.next e with
  | some (.recv m) => decidable_of_iff (C y.server y.received m)
      ⟨fun hC _ hm => Op.recv.inj (some.inj (h.symm.trans hm)) ▸ hC, fun hC => hC m h⟩
  | some (.back _) => isTrue fun _ hm => nomatch h.symm.trans hm
  | none => isTrue fun _ hm => nomatch h.symm.trans hm

/-- `Inv` is kept by everything that can happen to the maps, given `C` of the parts received. -/
structure Preserved (h : Host) (C : Server → List Msg → Msg → Prop) (Inv : Server → List Msg → Prop) :
    Prop where
  wait : ∀ s tr w n, Inv s tr → Inv { s with waitlist := w, walks := n } tr
  update : ∀ s tr k up, Inv s tr → C s tr (.update k up) →
    Inv (recvUpdate s k up).1 (tr ++ [.update k up])
  order : ∀ s tr k od, Inv s tr → C s tr (.order k od) →
    Inv (recvOrder s k od) (tr ++ [.order k od])
  touch : ∀ s tr k id, (h.ReadsOnly (fun _ => True) → (s.orderMap k).isExist id = true) → Inv s tr →
    Inv (touch s k id) tr
  commit : ∀ s tr k t, Inv s tr → Ready h s k t → Inv (ingestTxn s k t) tr

variable {Inv : Server → List Msg → Prop} {C : Server → List Msg → Msg → Prop}

theorem Preserved.stable (hP : Preserved h C Inv) (k : Slot) (tr : List Msg) :
    Stable h k fun s => Inv s tr :=
  ⟨fun s hs => hP.wait s tr s.waitlist _ hs, fun s id => hP.touch s tr k id,
    fun s t => hP.commit s tr k t⟩

theorem Preserved.kept (hP : Preserved h C Inv) (hC : OnRecv C y e)
    (hs : step h y e = some y') (hy : Inv y.server y.received) : Inv y'.server y'.received := by
  rcases step_cases hs with ⟨w, hw, hr⟩ | ⟨m, hm, hw, hr⟩ | ⟨k, t, b, -, ha, hr⟩
  · rw [hw, hr]; exact hP.wait _ _ w _ hy
  · rw [hw, hr]
    cases m with
    | update k up => exact hP.update _ _ k up hy (hC _ hm)
    | order k od => exact hP.order _ _ k od hy (hC _ hm)
  · rw [hr]
    obtain ⟨ts, happ⟩ := applyUpdateByOrder_spec h k h.depth _ t _ b ha
    exact happ.commits.preserves (hP.stable k _) hy

theorem Preserved.throughout (hP : Preserved h C Inv) (hinit : Inv {} []) {es : List Event}
    (hC : Along (step h) (OnRecv C) {} es) :
    Throughout (step h) (fun y => Inv y.server y.received) {} es :=
  throughout_of_inv (fun _ _ _ hy hCe hs => hP.kept hCe hs hy) hinit hC

theorem Preserved.at_end (hP : Preserved h (fun _ _ _ => True) Inv)
    (hinit : Inv {} []) {es : List Event} {y : Replica} (hr : run (step h) {} es = some y) :
    Inv y.server y.received :=
  run_inv (P := fun y => Inv y.server y.received)
    (fun _ _ _ hy hs => hP.kept (fun _ _ => trivial) hs hy) hinit hr

/-! ### Requests run to their end -/

/-- A host under which a copy that is gone still reads as it was. -/
def Host.inOrder (depth : ℕ) : Host := ⟨fun _ ps => ps, depth⟩

/-- A column of the stock table, in the first shard. -/
def stockQuantity : Slot := ⟨0, "stock.s_quantity"⟩

/-- The order of `t` for the one column `k`. -/
def orderIn (k : Slot) (t : TxnId) (parents : List TxnId) : Order :=
  { txnId := t, parentsTid := parents, touchedCols := [k.col] }

/-- Stream `i` brings the order of `t` for one column, and its handler runs it. -/
def deliverOrder (i : ℕ) (k : Slot) (t : TxnId) (parents : List TxnId) : List Event :=
  [.order i ⟨k.shard, [orderIn k t parents]⟩, .run i, .run i]

/-- Stream `i` brings one update, and its handler runs it. -/
def deliverUpdate (i : ℕ) (k : Slot) (up : Update) : List Event :=
  [.update i ⟨k.shard, k.col, [up]⟩, .run i, .run i]

@[simp] theorem sent_append (es fs : List Event) : sent (es ++ fs) = sent es ++ sent fs :=
  flatMap_append

@[simp] theorem sent_deliverOrder (i : ℕ) (k : Slot) (t : TxnId) (ps : List TxnId) :
    sent (deliverOrder i k t ps) = [.order k (orderIn k t ps)] := rfl

theorem step_run (h : Host) (s : Server) (f : ℕ → List Op) (q : Option QueryThread) (tr : List Msg)
    (i : ℕ) (op : Op) (rest : List Op) : step h ⟨s, update f i (op :: rest), q, tr⟩ (.run i) =
      (exec h s op).map fun r => ⟨r.1, update f i (r.2 ++ rest), q, record tr op⟩ := by
  simp only [step, update_self, update_idem]

theorem run_deliverOrder (h : Host) {y : Replica} {i : ℕ} (hi : y.streams i = []) (k : Slot)
    (t : TxnId) (ps : List TxnId) : run (step h) y (deliverOrder i k t ps) =
      (backOrder h (recvOrder y.server k (orderIn k t ps)) k (orderIn k t ps)).map fun s =>
        { y with server := s, received := y.received ++ [.order k (orderIn k t ps)] } := by
  have hsame : update y.streams i [] = y.streams := by rw [← hi, update_eq_self]
  have harrive : step h y (.order i ⟨k.shard, [orderIn k t ps]⟩) = some ⟨y.server,
      update y.streams i [.recv (.order k (orderIn k t ps))], y.query, y.received⟩ := by
    simp only [step, hi]; rfl
  simp only [deliverOrder, run, harrive, Option.bind_some, step_run, exec, Option.map_some,
    append_nil, Option.map_map, comp_def, record, hsame, Option.bind_fun_some]

end Fiss.Olap
