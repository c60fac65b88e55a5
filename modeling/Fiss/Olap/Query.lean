import Fiss.Olap.Callers

/-! What a query sees. The query thread puts every transaction that has status 0 in a scanned column
    on the waitlist, and calls `run_query` when the waitlist is empty; a pair leaves the waitlist only
    after its flag was raised, and a flag is raised only when the update is ingested. So the query
    is fresh in the columns that were scanned. The scan looks for the columns of the query under
    keys that grow with the iteration, while the query is chosen modulo 22. -/

namespace Fiss.Olap
open Relation List Option

/-- The query thread is about to call `run_query`. -/
structure Asking (y : Replica) (q : QueryThread) : Prop where
  thread : y.query = some q
  pc : q.pc = .clean []
  empty : y.server.waitlist.isEmpty = true

/-- Every transaction that had status 0 in a column of the query has its update there ingested. -/
def Fresh (y : Replica) (q : QueryThread) : Prop := ∀ e ∈ q.due, Ingested y.server e.1 e.2

/-! ### The first 22 iterations -/

/-- What keeps a due pair from being forgotten: it is ingested, or on the waitlist, or its column is
    still to be scanned and it will be found there. -/
def Owed (s : Server) (todo : List Slot) (k : Slot) (t : TxnId) : Prop :=
  Ingested s k t ∨ flagOf s.waitlist t k ≠ none ∨ (k ∈ todo ∧ t ∈ waiting s k)

structure OwedInv (due : List (Slot × TxnId)) (todo : List Slot) (s : Server) : Prop where
  raised : ∀ t k n, flagOf s.waitlist t k = some (n + 1) → Ingested s k t
  owed : ∀ e ∈ due, Owed s todo e.1 e.2

section Maps
variable {h : Host} {due : List (Slot × TxnId)} {todo : List Slot} {s s' : Server} {tr : List Msg}

theorem waiting_mono {k : Slot} {t : TxnId}
    (hex : (s.orderMap k).isExist t = true → (s'.orderMap k).isExist t = true)
    (hrec : ∀ v, (s.orderVec k).find t = some v → (s'.orderVec k).find t = some v)
    (h : t ∈ waiting s k) : t ∈ waiting s' k := by
  obtain ⟨hv, v, hfind, hst⟩ := mem_waiting.mp h
  exact mem_waiting.mpr ⟨hex hv, v, hrec v hfind, hst⟩

theorem owedInv_of_waiting (hi : OwedInv due todo s) (hin : s'.ingested = s.ingested)
    (hw : s'.waitlist = s.waitlist) (hwait : ∀ k t, t ∈ waiting s k → t ∈ waiting s' k) :
    OwedInv due todo s' := by
  refine ⟨fun t k n hn => ?_, fun e he => ?_⟩
  · rw [Ingested, hin]
    exact hi.raised t k n (hw ▸ hn)
  · rw [Owed, Ingested, hin, hw]
    exact (hi.owed e he).imp_right (Or.imp_right fun h => ⟨h.1, hwait _ _ h.2⟩)

theorem owedInv_recv (hi : OwedInv due todo s) (m : Msg) : OwedInv due todo (recv s m) := by
  cases m with
  | order k od =>
    refine owedInv_of_waiting hi rfl rfl fun k' t => waiting_mono ?_ fun v hv => ?_
    · exact fun hex => (isExist_recvOrder ..).mpr (.inl hex)
    · rw [recv, find_recvOrder, hv]; rfl
  | update k up =>
    refine owedInv_of_waiting hi (recvUpdate_ingested ..) (recvUpdate_waitlist ..) fun k' t => ?_
    rw [recv, waiting, waiting, recvUpdate_orderMap, recvUpdate_orderVec]
    exact id

theorem owedInv_touch (hi : OwedInv due todo s) (k : Slot) (id : TxnId) :
    OwedInv due todo (touch s k id) := by
  refine owedInv_of_waiting hi rfl rfl fun k' t => waiting_mono (fun hex => hex) fun v hv => ?_
  rw [find_orderVec_touch]
  split
  case isTrue hc => rw [hc.1, hc.2] at hv; rw [hv]; rfl
  case isFalse => exact hv

theorem owedInv_commit (hb : Base h s tr) (hi : OwedInv due todo s) {k : Slot} {t : TxnId}
    (hr : Ready h s k t) : OwedInv due todo (ingestTxn s k t) := by
  have hmono : ∀ k' t', Ingested s k' t' → Ingested (ingestTxn s k t) k' t' :=
    fun k' t' h => h.mono fun e he => mem_append_left _ he
  refine ⟨fun t' k' n hn => ?_, fun e he => ?_⟩
  · have hflag : flagOf (markWait s.waitlist t k) t' k' = some (n + 1) := hn
    rw [flagOf_markWait] at hflag
    split at hflag
    case isTrue hc =>
      obtain ⟨rfl, rfl⟩ := hc
      exact hb.ingested_commit hr
    case isFalse => exact hmono k' t' (hi.raised t' k' n hflag)
  · rcases Classical.em (e.1 = k ∧ e.2 = t) with hc | hne
    · rw [hc.1, hc.2]
      exact .inl (hb.ingested_commit hr)
    · rcases hi.owed e he with h | h | h
      · exact .inl (hmono _ _ h)
      · refine .inr (.inl ?_)
        have hflag : flagOf (markWait s.waitlist t k) e.2 e.1 ≠ none := by
          rw [flagOf_markWait, if_neg fun hc => hne ⟨hc.2, hc.1⟩]
          exact h
        exact hflag
      · refine .inr (.inr ⟨h.1, waiting_mono (s := s) (fun hex => hex) (fun v hv => ?_) h.2⟩)
        rw [find_orderVec_ingestTxn, if_neg hne]
        exact hv

theorem Commits.owedInv {k : Slot} {ts : List TxnId} (hc : Commits h k s ts s')
    (hb : Base h s tr) (hi : OwedInv due todo s) : OwedInv due todo s' :=
  (hc.preserves (P := fun s => Base h s tr ∧ OwedInv due todo s)
    ⟨fun s hs => ⟨base_preserved.wait s tr s.waitlist _ hs.1, hs.2.raised, hs.2.owed⟩,
      fun _ id hid hs => ⟨base_touch hs.1 hid, owedInv_touch hs.2 k id⟩,
      fun _ _ hs hr => ⟨base_commit hs.1 hr, owedInv_commit hs.1 hs.2 hr⟩⟩ ⟨hb, hi⟩).2

theorem owedInv_scan {k : Slot} (hi : OwedInv due (k :: todo) s) :
    OwedInv (due ++ waitingIn s [k]) todo
      { s with waitlist := (waiting s k).foldl (addWait k) s.waitlist } := by
  have hon : ∀ t ∈ waiting s k, flagOf ((waiting s k).foldl (addWait k) s.waitlist) t k ≠ none := by
    intro t ht
    rw [flagOf_addWaits, if_pos ⟨ht, rfl⟩]
    simp
  refine ⟨fun t k' n hn => ?_, fun e he => ?_⟩
  · have hflag : flagOf ((waiting s k).foldl (addWait k) s.waitlist) t k' = some (n + 1) := hn
    rw [flagOf_addWaits] at hflag
    refine hi.raised t k' n ?_
    split at hflag
    · cases hf : flagOf s.waitlist t k' with
      | none => rw [hf] at hflag; simp at hflag
      | some m => rw [hf] at hflag; exact hflag
    · exact hflag
  · rcases mem_append.mp he with he | he
    · rcases hi.owed e he with h | h | ⟨hk, ht⟩
      · exact .inl h
      · refine .inr (.inl ?_)
        have hflag : flagOf ((waiting s k).foldl (addWait k) s.waitlist) e.2 e.1 ≠ none := by
          rw [flagOf_addWaits]
          split
          · simp
          · exact h
        exact hflag
      · rcases mem_cons.mp hk with hk | hk
        · rw [hk] at ht ⊢
          exact .inr (.inl (hon e.2 ht))
        · exact .inr (.inr ⟨hk, ht⟩)
    · obtain ⟨k', hk', he⟩ := mem_flatMap.mp he
      obtain ⟨t, ht, rfl⟩ := mem_map.mp he
      obtain rfl := mem_singleton.mp hk'
      exact .inr (.inl (hon t ht))

theorem owedInv_prune (hi : OwedInv due todo s) (t : TxnId) (k : Slot) :
    OwedInv due todo { s with waitlist := pruneWait s.waitlist t k } := by
  refine ⟨fun t' k' n hn => ?_, fun e he => ?_⟩
  · rcases flagOf_pruneWait s.waitlist t k t' k' with h | ⟨-, h⟩
    · exact hi.raised t' k' n (h ▸ hn)
    · have hnone : none = some (n + 1) := h.symm.trans hn
      simp at hnone
  · rcases hi.owed e he with h | h | h
    · exact .inl h
    · rcases flagOf_pruneWait s.waitlist t k e.2 e.1 with hp | ⟨⟨n, hn⟩, -⟩
      · refine .inr (.inl fun hnone => h ?_)
        exact hp.symm.trans hnone
      · exact .inl (hi.raised e.2 e.1 n hn)
    · exact .inr (.inr h)

end Maps

/-- The columns the thread has still to scan. -/
def QueryPc.toScan : QueryPc → List Slot
  | .scan todo => todo
  | .start => []
  | .clean _ => []
  | .prune _ _ _ => []

/-- In an iteration below 22 every due pair is owed. -/
structure FreshInv (y : Replica) : Prop where
  raised : ∀ t k n, flagOf y.server.waitlist t k = some (n + 1) → Ingested y.server k t
  owed : ∀ q, y.query = some q → q.count < 22 → OwedInv q.due q.pc.toScan y.server

theorem mem_waitingIn {s : Server} {slots : List Slot} {e : Slot × TxnId}
    (h : e ∈ waitingIn s slots) : e.1 ∈ slots ∧ e.2 ∈ waiting s e.1 := by
  obtain ⟨k, hk, he⟩ := mem_flatMap.mp h
  obtain ⟨t, ht, rfl⟩ := mem_map.mp he
  exact ⟨hk, ht⟩

theorem slotsOf_subset {cols cols' : List String} (h : ∀ c ∈ cols, c ∈ cols') :
    ∀ k ∈ slotsOf cols, k ∈ slotsOf cols' := by
  intro k hk
  obtain ⟨c, hc, hk⟩ := mem_flatMap.mp hk
  exact mem_flatMap.mpr ⟨c, h c hc, hk⟩

variable {h : Host} {y : Replica}

theorem freshInv_query {q q' : QueryThread} {s' : Server}
    (hb : Base h y.server y.received) (hf : FreshInv y) (hq : y.query = some q)
    (hm : QueryMove h y.server q s' q') : FreshInv { y with server := s', query := some q' } := by
  -- what is left to show about the new position, as the rest of `FreshInv` follows from it
  suffices hnew : (∀ t k n, flagOf s'.waitlist t k = some (n + 1) → Ingested s' k t) ∧
      (q'.count < 22 → OwedInv q'.due q'.pc.toScan s') by
    refine ⟨hnew.1, ?_⟩
    rintro q'' ⟨⟩
    exact hnew.2
  have howed := hf.owed q hq
  have hnone : OwedInv [] [] y.server := ⟨hf.raised, by simp⟩
  cases hm with
  | start hpc =>
    refine ⟨hf.raised, fun hlt => ⟨hf.raised, fun e he => .inr (.inr ?_)⟩⟩
    have hlt' : q.count < 22 := hlt
    have hsub := slotsOf_subset (queryCols_subset_scanCols q.count hlt')
    obtain ⟨hk, ht⟩ := mem_waitingIn he
    simp only [QueryPc.toScan]
    exact ⟨hsub e.1 hk, ht⟩
  | scan k ks hpc =>
    rw [hpc] at howed
    have hstart : OwedInv [] (k :: ks) y.server := ⟨hf.raised, by simp⟩
    exact ⟨(owedInv_scan hstart).raised, fun hlt => owedInv_scan (howed hlt)⟩
  | scanned hpc =>
    rw [hpc] at howed
    exact ⟨hf.raised, howed⟩
  | call t k todo s1 b hpc ha =>
    rw [hpc] at howed
    obtain ⟨ts, happ⟩ := applyUpdateByOrder_spec h k h.depth _ t s' b ha
    exact ⟨(happ.commits.owedInv hb hnone).raised, fun hlt => happ.commits.owedInv hb (howed hlt)⟩
  | prune t k todo hpc =>
    rw [hpc] at howed
    exact ⟨(owedInv_prune hnone t k).raised, fun hlt => owedInv_prune (howed hlt) t k⟩
  | again hpc _ =>
    rw [hpc] at howed
    exact ⟨hf.raised, howed⟩
  | finish hpc _ => exact ⟨hf.raised, fun _ => hnone⟩

theorem freshInv_exec {op : Op} {r : Server × List Op} (hb : Base h y.server y.received)
    (hf : FreshInv y) (hx : exec h y.server op = some r) (f : ℕ → List Op) (tr : List Msg) :
    FreshInv ⟨r.1, f, y.query, tr⟩ := by
  suffices hkeep : ∀ due todo, OwedInv due todo y.server → OwedInv due todo r.1 by
    exact ⟨(hkeep [] [] ⟨hf.raised, by simp⟩).raised, fun q hq hlt => hkeep _ _ (hf.owed q hq hlt)⟩
  intro due todo hi
  cases op with
  | recv m =>
    have hr : r.1 = recv y.server m := by
      cases m with
      | update k up | order k od => obtain rfl := some.inj hx; rfl
    rw [hr]
    exact owedInv_recv hi m
  | back m =>
    rw [exec_back] at hx
    obtain ⟨⟨s1, b⟩, ha, rfl⟩ := map_eq_some_iff.mp hx
    obtain ⟨ts, happ⟩ := applyUpdateByOrder_spec h m.slot h.depth _ m.txn s1 b ha
    exact happ.commits.owedInv hb hi

theorem freshInv_step {y y' : Replica} {e : Event} (hb : Base h y.server y.received)
    (hf : FreshInv y) (hs : step h y e = some y') : FreshInv y' := by
  cases move_of_step hs with
  | arrive _ i q hq =>
    refine ⟨hf.raised, fun q' hq' hlt => ?_⟩
    rcases hq q' hq' with hq | rfl
    · exact hf.owed q' hq hlt
    · exact ⟨hf.raised, forall_mem_nil _⟩
  | idle => exact hf
  | run i op rest r _ hx => exact freshInv_exec hb hf hx _ _
  | query q s' q' hq hm => exact freshInv_query hb hf hq hm

theorem freshInv_run {es : List Event} (hr : run (step h) {} es = some y) : FreshInv y := by
  have hinit : FreshInv {} := ⟨fun t k n h => by simp [flagOf] at h, fun q h => by simp at h⟩
  have hboth := run_inv (P := fun y => Base h y.server y.received ∧ FreshInv y)
    (fun _ _ _ hy hs => ⟨base_preserved.kept (fun _ _ => trivial) hs hy.1,
      freshInv_step hy.1 hy.2 hs⟩) ⟨base_init, hinit⟩ hr
  exact hboth.2

theorem fresh_of_lt {es : List Event} {q : QueryThread}
    (hr : run (step h) {} es = some y) (ha : Asking y q) (hlt : q.count < 22) : Fresh y q := by
  intro e he
  rcases ((freshInv_run hr).owed q ha.thread hlt).owed e he with h | h | ⟨h, -⟩
  · exact h
  · exact absurd (flagOf_of_isEmpty ha.empty e.2 e.1) h
  · rw [ha.pc] at h
    exact absurd h not_mem_nil

/-! ### From iteration 22 on -/

/-- The replica before iteration `count`, when no order has arrived yet. -/
def idle (count : ℕ) : Replica := { query := some { count := count } }

/-- The steps of the query thread in an iteration without orders. -/
def idleIteration (count : ℕ) : List Event :=
  .query :: (replicate (slotsOf (scanCols count)).length .query ++ [.query, .query])

theorem run_scan_idle (h : Host) (count : ℕ) (due : List (Slot × TxnId)) : ∀ todo : List Slot,
    run (step h) { query := some { count := count, pc := .scan todo, due := due } }
        (replicate todo.length .query) =
      some { query := some { count := count, pc := .scan [], due := due } }
  | [] => rfl
  | k :: todo => by
    have hstep : step h { query := some { count := count, pc := .scan (k :: todo), due := due } } .query =
        some { query := some { count := count, pc := .scan todo, due := due } } := by
      have hno : waitingIn {} [k] = [] := rfl
      simp only [step, queryStep, hno, append_nil, map_some]
      rfl
    rw [length_cons, replicate_succ, run, hstep, bind_some]
    exact run_scan_idle h count due todo

theorem waitingIn_empty (slots : List Slot) : waitingIn {} slots = [] :=
  flatMap_eq_nil_iff.mpr fun _ _ => rfl

theorem run_idleIteration (h : Host) (count : ℕ) :
    run (step h) (idle count) (idleIteration count) = some (idle (count + 1)) := by
  have hstart : step h (idle count) .query = some
      { query := some { count := count, pc := .scan (slotsOf (scanCols count)), due := [] } } := by
    simp only [idle, step, queryStep, waitingIn_empty, map_some]
  rw [idleIteration, run, hstart, bind_some, run_append, run_scan_idle, bind_some]
  rfl

theorem run_idles (h : Host) : ∀ n, run (step h) (idle 0) ((range n).flatMap idleIteration) =
    some (idle n)
  | 0 => rfl
  | n + 1 => by
    rw [range_succ, flatMap_append, run_append, run_idles h n, bind_some,
      flatMap_singleton, run_idleIteration]

/-- A column of the query that iteration `count` runs. -/
def staleSlot (count : ℕ) : Slot := ⟨0, (queryCols (count % 22 + 1)).headD ""⟩

/-- Iterations without orders up to `count`, then an order in a column of the query, and the scan of
    that iteration. -/
def staleRun (count : ℕ) : List Event :=
  .update 0 ⟨0, "", []⟩ :: ((range count).flatMap idleIteration ++
    (deliverOrder 0 (staleSlot count) 1 [] ++ [.query, .query]))

theorem staleSlot_mem (count : ℕ) : staleSlot count ∈ slotsOf (queryCols (count % 22 + 1)) := by
  refine mem_flatMap.mpr ⟨(queryCols (count % 22 + 1)).headD "", ?_, ?_⟩
  · cases hq : queryCols (count % 22 + 1) with
    | nil => exact absurd hq (queryCols_ne_nil _ (Nat.mod_lt _ (by omega)))
    | cons c cs => exact mem_cons_self ..
  · exact mem_map.mpr ⟨0, mem_range.mpr (by decide : 0 < 30), rfl⟩

/-- The maps when the only thing that has arrived is the order of transaction 1 in a column. -/
def oneOrder (k : Slot) : Server := recvOrder {} k (orderIn k 1 [])

theorem backOrder_oneOrder (k : Slot) :
    backOrder (.inOrder 1) (oneOrder k) k (orderIn k 1 []) = some (oneOrder k) := by
  have hnone : ((oneOrder k).updateMap k).find 1 = none := rfl
  simp only [backOrder, Host.inOrder, applyUpdateByOrder, orderIn]
  rw [if_pos (.inr hnone)]
  rfl

theorem waiting_oneOrder (k : Slot) : 1 ∈ waiting (oneOrder k) k := by
  refine mem_waiting.mpr ⟨(isExist_recvOrder ..).mpr (.inr ⟨rfl, .inl rfl⟩),
    announcedVertex (orderIn k 1 []), ?_, rfl⟩
  rw [oneOrder, find_recvOrder, if_pos ⟨rfl, rfl⟩]
  rfl

/-- The keys of iteration `count` are past the table: the order is not waited for. -/
theorem stale_of_ge {count : ℕ} (hge : 22 ≤ count) :
    ∃ y q, run (step (.inOrder 1)) {} (staleRun count) = some y ∧ Asking y q ∧ q.count = count ∧
      ¬ Fresh y q := by
  have hfirst : step (.inOrder 1) {} (.update 0 ⟨0, "", []⟩) = some (idle 0) := by
    have hstreams : Function.update (fun _ : ℕ => ([] : List Op)) 0 [] = fun _ => [] :=
      Function.update_eq_self 0 _
    simp only [step, UpdateReq.parts, map_nil, append_nil, hstreams]
    rfl
  have hstart : ∀ f tr, step (.inOrder 1) ⟨oneOrder (staleSlot count), f, some { count := count }, tr⟩
      .query = some ⟨oneOrder (staleSlot count), f, some
        { count := count, pc := .scan [],
          due := waitingIn (oneOrder (staleSlot count)) (slotsOf (queryCols (count % 22 + 1))) }, tr⟩ := by
    intro f tr
    simp only [step, queryStep, map_some, scanCols_eq_nil hge]
    rfl
  have horder : run (step (.inOrder 1)) (idle count) (deliverOrder 0 (staleSlot count) 1 []) =
      some ⟨oneOrder (staleSlot count), fun _ => [], some { count := count },
        [.order (staleSlot count) (orderIn (staleSlot count) 1 [])]⟩ := by
    rw [run_deliverOrder (.inOrder 1) rfl]
    exact congrArg (Option.map _) (backOrder_oneOrder (staleSlot count))
  have hrun : run (step (.inOrder 1)) {} (staleRun count) = some ⟨oneOrder (staleSlot count),
      fun _ => [], some
        { count := count, pc := .clean [],
          due := waitingIn (oneOrder (staleSlot count)) (slotsOf (queryCols (count % 22 + 1))) },
      [.order (staleSlot count) (orderIn (staleSlot count) 1 [])]⟩ := by
    rw [staleRun, run, hfirst, bind_some, run_append, run_idles, bind_some, run_append,
      horder, bind_some, run, hstart]
    rfl
  refine ⟨_, _, hrun, ⟨rfl, rfl, rfl⟩, rfl, fun hfresh => ?_⟩
  have hdue : (staleSlot count, 1) ∈ waitingIn (oneOrder (staleSlot count))
      (slotsOf (queryCols (count % 22 + 1))) :=
    mem_flatMap.mpr ⟨_, staleSlot_mem count, mem_map.mpr ⟨1, waiting_oneOrder _, rfl⟩⟩
  obtain ⟨x, hx, -⟩ := hfresh _ hdue
  exact absurd hx not_mem_nil

/-- The query of an iteration is fresh in every run exactly when the iteration is one of the first
    22: `base` is not taken modulo 22 as the query number is. -/
theorem query_fresh_iff (count : ℕ) :
    (∀ (h : Host) (es : List Event) (y : Replica) (q : QueryThread),
      run (step h) {} es = some y → Asking y q → q.count = count → Fresh y q) ↔ count < 22 := by
  constructor
  · intro hall
    by_contra hge
    obtain ⟨y, q, hr, ha, hc, hno⟩ := stale_of_ge (Nat.le_of_not_lt hge)
    exact hno (hall _ _ y q hr ha hc)
  · rintro hlt h es y q hr ha rfl
    exact fresh_of_lt hr ha hlt

/-- In iteration 22 `run_query(0)` is called while the order of transaction 1 in a column of the
    first query waits for its update. -/
theorem query_stale_at_22 :
    ∃ y q, run (step (.inOrder 1)) {} (staleRun 22) = some y ∧ Asking y q ∧ q.count = 22 ∧
      ¬ Fresh y q :=
  stale_of_ge (le_refl 22)

end Fiss.Olap
