import Fiss.Slog.Moves

/-! The order of the executions at a site. In the list of executions a piece stands after every piece
    of an earlier transaction of the queue that conflicts with it, and no piece stands twice; the
    transactions before the cursor have all their pieces there. -/

namespace Fiss.Slog
open Fiss.Rcc List Option

section Order

variable {DB : Type}

/-- Piece `k` of `t` is among the executions `l`. -/
def Among (l : List Execution) (t k : ℕ) : Prop := ∃ x ∈ l, x.txn = t ∧ x.piece = k

def Execution.key (x : Execution) : ℕ × ℕ := (x.txn, x.piece)

/-- Whenever a piece was executed, the pieces in conflict with it of the transactions before its own
    in the queue had been executed. -/
def AfterConflicts (site : Site DB) (st : Sched DB) : Prop :=
  ∀ (p : ℕ) (x : Execution), st.ran[p]? = some x →
    ∀ (j : ℕ) (d : TxSlog) (c : SimpleCommand), st.Holds j x.txn d → d.pieces[x.piece]? = some c →
      ∀ i < j, ∃ t' d', st.Holds i t' d' ∧ ∀ (k' : ℕ) (c' : SimpleCommand),
        d'.pieces[k']? = some c' → site.checkPieceConflict c'.innId c.innId = true →
          Among (st.ran.take p) t' k'

structure ConflictOrdered (site : Site DB) (st : Sched DB) : Prop where
  ordered : AfterConflicts site st
  /-- a transaction before the cursor is fully executed -/
  below : ∀ i < st.nextExecuteIndex, ∃ t d, st.Holds i t d ∧ d.executed = true ∧
    ∀ k < d.pieces.length, Among st.ran t k
  /-- no piece is executed twice -/
  once : (st.ran.map Execution.key).Nodup

/-- The list of executions tells which pieces are executed. -/
structure Logged (site : Site DB) (st : Sched DB) : Prop where
  marked : ∀ (t : ℕ) (d : TxSlog) (k : ℕ) (c : SimpleCommand), st.dtxns.find t = some d →
    d.pieces[k]? = some c → (c.localExecuted = true ↔ Among st.ran t k)
  queued : ∀ x ∈ st.ran, ∃ j d c, st.Holds j x.txn d ∧ d.pieces[x.piece]? = some c
  distinct : ∀ (i j t : ℕ), st.txnQueue[i]? = some (some t) → st.txnQueue[j]? = some (some t) → i = j
  once : (st.ran.map Execution.key).Nodup
  ordered : AfterConflicts site st

theorem Logged.init (site : Site DB) (db : DB) : Logged site { db := db } where
  marked t d k c hd := by cases hd
  queued := forall_mem_nil _
  distinct i j t hi := by rw [getElem?_nil] at hi; cases hi
  once := nodup_nil
  ordered p x hx := by rw [getElem?_nil] at hx; cases hx

end Order

section Steps

variable {DB : Type} {site : Site DB} {src : Supply} {st st' : Sched DB} {t : ℕ} {d : TxSlog}

theorem ordered_onward (h : Logged site st) (hon : Onward st st') {more : List Execution}
    (hran : st'.ran = st.ran ++ more) (hdistinct : ∀ (i j t : ℕ), st'.txnQueue[i]? = some (some t) →
      st'.txnQueue[j]? = some (some t) → i = j)
    {p : ℕ} {x : Execution} (hp : st.ran[p]? = some x) {j : ℕ} {d : TxSlog} {c : SimpleCommand}
    (hat : st'.Holds j x.txn d) (hc : d.pieces[x.piece]? = some c) {i : ℕ} (hi : i < j) :
    ∃ t' d', st'.Holds i t' d' ∧ ∀ (k' : ℕ) (c' : SimpleCommand), d'.pieces[k']? = some c' →
      site.checkPieceConflict c'.innId c.innId = true → Among (st'.ran.take p) t' k' := by
  -- the transaction stood in that slot before, with that piece
  obtain ⟨j0, d0, c0, hat0, hc0⟩ := h.queued x (mem_of_getElem? hp)
  obtain rfl : j0 = j := hdistinct j0 j x.txn (hon.queue _ _ hat0.1) hat.1
  obtain ⟨d1, hd1, had⟩ := hon.records x.txn d0 hat0.2
  obtain rfl : d1 = d := some.inj (hd1.symm.trans hat.2)
  obtain ⟨c1, hc1, hfed⟩ := had.pieces _ c hc
  obtain ⟨t', d', hat', hbefore⟩ := h.ordered p x hp j0 d0 c1 hat0 hc1 i hi
  obtain ⟨d'', hat'', had'⟩ := hon.holds hat'
  refine ⟨t', d'', hat'', fun k' c'' hc'' hconf => ?_⟩
  obtain ⟨c', hc', hfed'⟩ := had'.pieces k' c'' hc''
  have hlt := (List.getElem?_eq_some_iff.mp hp).1
  rw [hran, take_append_of_le_length hlt.le]
  exact hbefore k' c' hc' (by rw [← hfed'.innId, ← hfed.innId]; exact hconf)

theorem queued_onward (h : Logged site st) (hon : Onward st st') {x : Execution} (hx : x ∈ st.ran) :
    ∃ j d c, st'.Holds j x.txn d ∧ d.pieces[x.piece]? = some c := by
  obtain ⟨j, d, c, hat, hc⟩ := h.queued x hx
  obtain ⟨d', hat', had⟩ := hon.holds hat
  have hlt : x.piece < d'.pieces.length := had.length ▸ (List.getElem?_eq_some_iff.mp hc).1
  exact ⟨j, d', _, hat', getElem?_eq_getElem hlt⟩

theorem Logged.kept (h : Logged site st) (hon : Onward st st') (hran : st'.ran = st.ran)
    (hdistinct : ∀ (i j t : ℕ), st'.txnQueue[i]? = some (some t) →
      st'.txnQueue[j]? = some (some t) → i = j)
    (hmarked : ∀ (t : ℕ) (d' : TxSlog) (k : ℕ) (c' : SimpleCommand), st'.dtxns.find t = some d' →
      d'.pieces[k]? = some c' → (c'.localExecuted = true ↔ Among st.ran t k)) : Logged site st' where
  marked := by rw [hran]; exact hmarked
  queued x hx := queued_onward h hon (hran ▸ hx)
  distinct := hdistinct
  once := by rw [hran]; exact h.once
  ordered p x hp j d c hat hc i hi := by
    have hmore : st'.ran = st.ran ++ [] := by rw [hran, append_nil]
    exact ordered_onward h hon hmore hdistinct (hran ▸ hp) hat hc hi

theorem Logged.set (h : Logged site st) (hon : Onward st st') (hran : st'.ran = st.ran)
    (hqueue : st'.txnQueue = st.txnQueue) {d' : TxSlog} (hd : st.dtxns.find t = some d)
    (hset : st'.dtxns = st.dtxns.set t d')
    (hsame : ∀ (k : ℕ) (c' : SimpleCommand), d'.pieces[k]? = some c' →
      ∃ c, d.pieces[k]? = some c ∧ c'.localExecuted = c.localExecuted) : Logged site st' := by
  refine h.kept hon hran (by rw [hqueue]; exact h.distinct) fun u e k c' he hc' => ?_
  rw [hset, Dict.find_set] at he
  split at he
  · next hu =>
    obtain rfl := some.inj he
    obtain ⟨c, hc, heq⟩ := hsame k c' hc'
    rw [heq, hu]
    exact h.marked t d k c hd hc
  · exact h.marked u e k c' he hc'

theorem among_concat {l : List Execution} {x : Execution} {t k : ℕ} :
    Among (l ++ [x]) t k ↔ Among l t k ∨ (x.txn = t ∧ x.piece = k) := by
  simp only [Among, mem_append, mem_singleton, or_and_right, exists_or, exists_eq_left]

theorem getElem_concat_cases {α : Type} {l : List α} {x y : α} {p : ℕ}
    (h : (l ++ [x])[p]? = some y) : l[p]? = some y ∨ (p = l.length ∧ y = x) := by
  rcases lt_or_ge p l.length with hlt | hge
  · rw [getElem?_append_left hlt] at h
    exact .inl h
  · rw [getElem?_append_right hge, getElem?_singleton] at h
    obtain ⟨hzero, hx⟩ := ite_none_right_eq_some.mp h
    exact .inr ⟨by omega, (some.inj hx).symm⟩

/-- A piece that is executed had not been, and what conflicts with it before it had. -/
theorem Logged.execute {j k : ℕ} {c : SimpleCommand} (h : Logged site st) (hat : st.Holds j t d)
    (hc : d.pieces[k]? = some c) (hrun : c.runnable = true)
    (hfree : st.Unhindered site j c.innId) : Logged site (st.executePiece site t k d c) := by
  have hon : Onward st (st.executePiece site t k d c) := onward_executePiece hat.2
  obtain ⟨o, ho⟩ := execute_filed site t k c { dtxn := d, db := st.db, ran := st.ran }
  obtain ⟨x, hran, hxt, hxk⟩ : ∃ x : Execution,
      (st.executePiece site t k d c).ran = st.ran ++ [x] ∧ x.txn = t ∧ x.piece = k :=
    ⟨_, rfl, rfl, rfl⟩
  have hno : ¬ Among st.ran t k := fun hin => by
    rw [← h.marked t d k c hat.2 hc, runnable_unexecuted hrun] at hin
    cases hin
  have hdistinct : ∀ (i j t' : ℕ), (st.executePiece site t k d c).txnQueue[i]? = some (some t') →
      (st.executePiece site t k d c).txnQueue[j]? = some (some t') → i = j := h.distinct
  refine ⟨fun u e i c' he hc' => ?_, fun y hy => ?_, hdistinct, ?_, fun p y hp j' e c' hat' hc' => ?_⟩
  · rw [hran, among_concat, hxt, hxk]
    rw [Sched.executePiece, find_withPass] at he
    split at he
    · next hu =>
      -- a piece of this transaction
      obtain rfl := some.inj he
      rw [ho, getElem_filedAt] at hc'
      obtain ⟨c0, hc0, rfl⟩ := map_eq_some_iff.mp hc'
      rw [localExecuted_offers, hu]
      split
      · next hki => exact iff_of_true rfl (.inr ⟨rfl, hki⟩)
      · next hki =>
        rw [h.marked t d i c0 hat.2 hc0, or_iff_left fun hk => hki hk.2]
    · next hu =>
      rw [h.marked u e i c' he hc', or_iff_left fun hk => hu hk.1.symm]
  · rw [hran] at hy
    rcases mem_append.mp hy with hy | hy
    · exact queued_onward h hon hy
    · obtain ⟨d', hat', had⟩ := hon.holds hat
      have hlt : k < d'.pieces.length := had.length ▸ (List.getElem?_eq_some_iff.mp hc).1
      rw [mem_singleton.mp hy, hxt, hxk]
      exact ⟨j, d', _, hat', getElem?_eq_getElem hlt⟩
  · rw [hran]
    refine nodup_map_concat h.once fun y hy heq => hno ?_
    obtain ⟨ht, hk⟩ := Prod.ext_iff.mp heq
    exact ⟨y, hy, ht.trans hxt, hk.trans hxk⟩
  · rw [hran] at hp
    rcases getElem_concat_cases hp with hp | ⟨rfl, rfl⟩
    · exact fun i hi => ordered_onward h hon hran hdistinct hp hat' hc' hi
    · -- the execution just made
      rw [hxt] at hat'
      rw [hxk] at hc'
      obtain rfl : j' = j := h.distinct j' j t hat'.1 hat.1
      obtain ⟨e', he', had⟩ := hon.records t d hat.2
      obtain rfl : e' = e := some.inj (he'.symm.trans hat'.2)
      obtain ⟨c0, hc0, hfed⟩ := had.pieces k c' hc'
      obtain rfl : c0 = c := some.inj (hc0.symm.trans hc)
      intro i hi
      obtain ⟨t', d', hati, hclear⟩ := hfree i hi
      obtain ⟨d'', hati', had'⟩ := hon.holds hati
      refine ⟨t', d'', hati', fun k' c'' hc'' hconf => ?_⟩
      obtain ⟨c1, hc1, hfed'⟩ := had'.pieces k' c'' hc''
      rw [hran, take_left, ← h.marked t' d' k' c1 hati.2 hc1]
      by_contra hunexec
      have hnone := hclear c1 (mem_of_getElem? hc1) (eq_false_of_ne_true hunexec)
      rw [← hfed'.innId, ← hfed.innId, hconf] at hnone
      cases hnone

theorem Logged.move (h : Logged site st) (hm : Move site src st st') : Logged site st' := by
  have hon := hm.onward
  cases hm with
  | execute hat hopen hc hrun hfree => exact h.execute hat hc hrun hfree
  | finish hat => exact h.set hon rfl rfl hat.2 rfl fun k c' hc' => ⟨c', hc', rfl⟩
  | skip | send => exact h.kept hon rfl h.distinct h.marked
  | merge hd =>
    refine h.set hon rfl rfl hd rfl fun k c' hc' => ?_
    rw [merge_pieces, getElem?_map] at hc'
    obtain ⟨c, hc, rfl⟩ := map_eq_some_iff.mp hc'
    exact ⟨c, hc, localExecuted_offers c _⟩
  | defer | notify => exact h.kept hon rfl h.distinct h.marked
  | @enter t d hno hnew _ =>
    refine h.kept hon rfl h.distinct fun u e k c' he hc' => ?_
    rw [Dict.find_set] at he
    split at he
    · next hu =>
      -- nothing of a transaction without a record was executed
      obtain rfl := some.inj he
      refine iff_of_false (fun hx => ?_) ?_
      · rw [hnew.pieces c' (mem_of_getElem? hc')] at hx
        cases hx
      · rintro ⟨x, hx, ht, -⟩
        obtain ⟨j, d', -, hat, -⟩ := h.queued x hx
        rw [Sched.Holds, ht, hu, hno] at hat
        cases hat.2
    · exact h.marked u e k c' he hc'
  | extend n =>
    exact h.kept hon rfl (fun i j u hi hj => h.distinct i j u (slot_extend hi) (slot_extend hj))
      h.marked
  | @enqueue k t d hslot hd hnew =>
    have hnot : ∀ {i : ℕ}, st.txnQueue[i]? ≠ some (some t) := fun hi => hnew (mem_of_getElem? hi)
    refine h.kept hon rfl (fun i j u hi hj => ?_) h.marked
    rcases slot_set hi with ⟨hik, hu⟩ | hi' <;> rcases slot_set hj with ⟨hjk, hu'⟩ | hj'
    · rw [hik, hjk]
    · rw [hu] at hj'
      exact absurd hj' hnot
    · rw [hu'] at hi'
      exact absurd hi' hnot
    · exact h.distinct i j u hi' hj'

theorem Logged.moves (hs : Sound st) (h : Logged site st)
    (hm : Moves site src st st') : Logged site st' :=
  moves_inv (fun _ _ _ h hm => h.move hm) hs h hm

theorem Logged.step {ev : SiteEvent} (hs : Sound st) (h : Logged site st) (hfresh : Fresh site st ev)
    (hstep : siteStep site st ev = some st') : Logged site st' := by
  rcases siteStep_cases hs hfresh (any_pending st) (any_allows site st ev) hstep with
    hmoves | ⟨t, par, output, d, -, hd, -, rfl⟩
  · exact h.moves hs hmoves
  · exact h.set (onward_receive hd) rfl rfl hd rfl fun k c' hc' => ⟨c', hc', rfl⟩

theorem conflictOrdered_of_logged (hs : Sound st) (h : Logged site st) : ConflictOrdered site st where
  ordered := h.ordered
  below i hi := by
    obtain ⟨t, d, hat, hx⟩ := done_iff.mp (hs.below i hi)
    refine ⟨t, d, hat, hx, fun k hk => ?_⟩
    have hc := getElem?_eq_getElem hk
    exact (h.marked t d k _ hat.2 hc).mp
      ((hs.counted t d hat.2).complete hx _ (mem_of_getElem? hc))
  once := h.once

/-- In every run conflicting pieces are executed in the order of the queue, each once. -/
theorem conflict_ordered (site : Site DB) (db : DB) (evs : List SiteEvent)
    (hfresh : Along (siteStep site) (Fresh site) { db := db } evs) :
    Throughout (siteStep site) (ConflictOrdered site) { db := db } evs :=
  have hinv : Throughout (siteStep site) (fun st => Sound st ∧ Logged site st) { db := db } evs :=
    throughout_of_inv (fun _ _ _ h hC hstep => ⟨h.1.step hC hstep, h.2.step h.1 hC hstep⟩)
      ⟨Sound.init db, Logged.init site db⟩ hfresh
  throughout_mono (fun _ h => conflictOrdered_of_logged h.1 h.2) hinv

end Steps

/-- A site where all pieces conflict and return nothing. -/
def oneByOne : Site Unit where
  siteId := 1
  parId := 0
  rootId c := c.innId
  handler _ _ _ _ := ({}, ())
  checkPieceConflict _ _ := true

/-- A piece that waits for variable 7. -/
def waitingPiece : SimpleCommand where
  innId := 1
  type := 1
  input := ⟨⟨[7], pairwise_singleton _ _⟩, {}, ⟨[(7, false)]⟩, false⟩

/-- Transaction 10 waits for a value, and 11 for it. -/
def waitingBatch : Batch where
  startIndex := 0
  cmds := [(10, [waitingPiece]), (11, [{ innId := 2, type := 1 }])]
  coordSites := [(10, 5), (11, 5)]
  allTouchedShards := [(10, [0]), (11, [0])]

/-- The second transaction waits with its ready piece until the first has its value. -/
theorem conflict_ordered_waiting : Along (siteStep oneByOne) (Fresh oneByOne) { db := () }
      [.sendBatch waitingBatch, .sendDepValues 10 ⟨[(7, .i32 3)]⟩] ∧
    (run (siteStep oneByOne) { db := () } [.sendBatch waitingBatch]).map (·.ran.length) = some 0 ∧
    (run (siteStep oneByOne) { db := () } [.sendBatch waitingBatch,
      .sendDepValues 10 ⟨[(7, .i32 3)]⟩]).map (fun st => st.ran.map Execution.key) =
        some [(10, 0), (11, 0)] ∧
    Throughout (siteStep oneByOne) (ConflictOrdered oneByOne) { db := () }
      [.sendBatch waitingBatch, .sendDepValues 10 ⟨[(7, .i32 3)]⟩] :=
  ⟨by decide, by decide, by decide, conflict_ordered oneByOne () _ (by decide)⟩

end Fiss.Slog
