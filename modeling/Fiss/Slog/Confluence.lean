import Fiss.Slog.Inputs
import Fiss.Slog.Queue

/-! Values are not lost, and the order of the messages does not matter. Once a transaction is queued
    its pieces have been handed all values that came for it, before or after it; so whatever has its
    inputs and waits for no earlier transaction has been executed, once and with these inputs. Two
    orders of the same messages execute the same pieces with the same inputs. -/

namespace Fiss.Slog
open Fiss.Rcc List Option Prod Dict

/-! ### Values that came -/

section

variable {DB : Type} {site : Site DB} {src : Supply} {w : Workload} {evs : List SiteEvent}
  {st st' : Sched DB} {M : ℕ → Dict ℕ Value → Prop}

/-- The values that came are pending, or were handed to the transaction's pieces. -/
def Came (M : ℕ → Dict ℕ Value → Prop) (st : Sched DB) : Prop :=
  ∀ t values, M t values → (t, values) ∈ st.pendingDepValues ∨
    ∃ d, st.dtxns.find t = some d ∧ d.Has values.entries

theorem handed_onward (hmade : w.Made site) (h : Stocks site w evs st) (hon : Onward st st') {t : ℕ}
    {l : List (ℕ × Value)} (hd : ∃ d, st.dtxns.find t = some d ∧ d.Has l) :
    ∃ d, st'.dtxns.find t = some d ∧ d.Has l := by
  obtain ⟨d, hd, hhas⟩ := hd
  obtain ⟨d', hd', had⟩ := hon.records t d hd
  exact ⟨d', hd', hhas.advanced ((h.records t d hd).declared hmade) had⟩

theorem Came.kept (hmade : w.Made site) (h : Stocks site w evs st) (hcame : Came M st)
    (hon : Onward st st') (hpending : st.pendingDepValues ⊆ st'.pendingDepValues) : Came M st' :=
  fun t values hM => (hcame t values hM).imp (fun hin => hpending hin) (handed_onward hmade h hon)

theorem Without.mem {α : Type} {l l' : List α} {x y : α} (h : Without l x l') (hy : y ∈ l) :
    y ∈ l' ∨ y = x := by
  rcases h with rfl | ⟨kept, rest, rfl, rfl⟩
  · exact .inl hy
  · rcases mem_append.mp hy with hy | hy
    · exact .inl (mem_append_left _ hy)
    · rcases mem_cons.mp hy with rfl | hy
      · exact .inr rfl
      · exact .inl (mem_append_right _ hy)

theorem Came.move (hmade : w.Made site) (h : Stocks site w evs st) (hcame : Came M st)
    (hm : Move site src st st') : Came M st' := by
  have hon := hm.onward
  cases hm with
  | @merge t d values pending hd hvalues hpending =>
    intro u values' hM
    rcases hcame u values' hM with hin | hhanded
    · rcases hpending.mem hin with hin | heq
      · exact .inl hin
      · -- these are handed over
        obtain ⟨rfl, rfl⟩ := mk.inj heq
        exact .inr ⟨d.merge values', find_set_self _ _ _,
          has_merge ((h.records u d hd).declared hmade) values'⟩
    · exact .inr (handed_onward hmade h hon hhanded)
  | defer => exact hcame.kept hmade h hon (subset_append_left _ _)
  | _ => exact hcame.kept hmade h hon (List.Subset.refl _)

theorem stocks_moves (hmade : w.Made site) (hs : Sound st) (hl : Logged site st)
    (h : Stocks site w evs st) (hcame : Came M st) (hm : Moves site (w.supply site evs) st st') :
    Stocks site w evs st' ∧ Came M st' := by
  have hall : Logged site st' ∧ Stocks site w evs st' ∧ Came M st' := by
    refine moves_inv (I := fun s => Logged site s ∧ Stocks site w evs s ∧ Came M s)
      (fun s s' hs hI hm => ?_) hs ⟨hl, h, hcame⟩ hm
    obtain ⟨hl, h, hcame⟩ := hI
    exact ⟨hl.move hm, h.move hmade hs hl hm, hcame.move hmade h hm⟩
  exact hall.2

theorem mergePending_left : ∀ (l : List (ℕ × Dict ℕ Value)) (st : Sched DB),
    ∀ e ∈ (st.mergePending l).1.pendingDepValues, st.dtxns.find e.1 = none
  | [], _, _, he => absurd he not_mem_nil
  | (t, values) :: l, st, e, he => by
    rw [Sched.mergePending] at he
    split at he
    · next hno =>
      rcases mem_cons.mp he with rfl | he
      · exact hno
      · exact mergePending_left l st e he
    · next d hd =>
      have hno := mergePending_left l _ e he
      rw [find_set] at hno
      split at hno
      · cases hno
      · exact hno

/-- Nothing pends for a transaction in the queue. -/
def Sched.Idle (st : Sched DB) : Prop := ∀ e ∈ st.pendingDepValues, some e.1 ∉ st.txnQueue

theorem Sound.not_queued (hs : Sound st) {t : ℕ} (hno : st.dtxns.find t = none) :
    some t ∉ st.txnQueue := by
  intro hin
  obtain ⟨j, hj⟩ := mem_iff_getElem?.mp hin
  obtain ⟨d, hd⟩ := hs.known j t hj
  cases hno.symm.trans hd

theorem checkPendingDeps_idle (hs : Sound st) : (st.checkPendingDeps site).Idle := by
  have hidle : (st.mergePending st.pendingDepValues).1.Idle := fun e he => by
    rw [(mergePending_queue _ st).queue]
    exact hs.not_queued (mergePending_left _ st e he)
  rw [Sched.checkPendingDeps]
  split
  · intro e he
    rw [execTxnQueue_pending] at he
    rw [(execTxnQueue_queue site _).queue]
    exact hidle e he
  · exact hidle

theorem idle_step {ev : SiteEvent} (hs : Sound st) (hidle : st.Idle) (hfresh : Fresh site st ev)
    (hstep : siteStep site st ev = some st') : st'.Idle := by
  cases ev with
  | submitTxn cmds =>
    obtain ⟨c, -, -, rfl⟩ := onSubmitTxn_eq hfresh hstep
    exact hidle
  | sendBatch b =>
    obtain ⟨st1, hmoves, rfl⟩ := onSendBatch_queued hfresh (any_allows site st (.sendBatch b))
      (ok_of_toOption hstep)
    have hs1 := hs.moves hmoves
    have hexec : Moves site .any st1 (st1.execTxnQueue site) :=
      execTxnQueue_moves hs1
    exact checkPendingDeps_idle (hs1.moves hexec)
  | sendDepValues t values =>
    obtain rfl := some.inj hstep
    rw [Sched.onSendDepValues]
    split
    · next hno =>
      exact forall_mem_concat hidle (hs.not_queued hno)
    · dsimp only
      split
      · intro e he
        rw [execTxnQueue_pending] at he
        rw [(execTxnQueue_queue site _).queue]
        exact hidle e he
      · exact hidle
  | sendTxnOutput t par output =>
    obtain ⟨d, hd, ⟨-, rfl⟩ | ⟨-, rfl⟩⟩ := onSendTxnOutput_cases output hstep
    · exact hidle
    · exact hidle

end

/-! ### Runs -/

section

variable {DB : Type} {site : Site DB} {w : Workload} {evs : List SiteEvent} {st st' : Sched DB}

/-- Slot `k` is `t`'s, by one of the batches. -/
def PlacedBy (evs : List SiteEvent) (k t : ℕ) : Prop :=
  ∃ b i p, .sendBatch b ∈ evs ∧ b.cmds[i]? = some p ∧ p.1 = t ∧ k = b.startIndex + i

/-- What holds after the events `evs`. -/
structure Kept (site : Site DB) (w : Workload) (evs : List SiteEvent) (st : Sched DB) : Prop where
  sound : Sound st
  logged : Logged site st
  settled : st.Settled site
  stocks : Stocks site w evs st
  came : Came (fun t values => .sendDepValues t values ∈ evs) st
  pending : (w.supply site evs).Pending st
  idle : st.Idle
  slots : ∀ (k t : ℕ), st.txnQueue[k]? = some (some t) ↔ PlacedBy evs k t

theorem Kept.init (site : Site DB) (w : Workload) (db : DB) : Kept site w [] { db := db } where
  sound := Sound.init db
  logged := Logged.init site db
  settled j hj t d hat := by
    have hslot := hat.1
    rw [getElem?_nil] at hslot
    cases hslot
  stocks := Stocks.init site w db
  came t values h := absurd h not_mem_nil
  pending := forall_mem_nil _
  idle := forall_mem_nil _
  slots k t := by
    rw [getElem?_nil]
    refine iff_of_false (fun h => by cases h) ?_
    rintro ⟨b, i, p, hb, -⟩
    cases hb

theorem slots_kept {ev : SiteEvent} (hslots : ∀ (k t : ℕ), st.txnQueue[k]? = some (some t) ↔
      PlacedBy evs k t) (hqueue : st'.txnQueue = st.txnQueue) (hev : ∀ b, ev ≠ .sendBatch b)
    (k t : ℕ) : st'.txnQueue[k]? = some (some t) ↔ PlacedBy (evs ++ [ev]) k t := by
  rw [hqueue, hslots]
  constructor
  · rintro ⟨b, i, p, hb, hrest⟩
    exact ⟨b, i, p, mem_append_left _ hb, hrest⟩
  · rintro ⟨b, i, p, hb, hrest⟩
    rcases mem_append.mp hb with hb | hb
    · exact ⟨b, i, p, hb, hrest⟩
    · exact absurd (mem_singleton.mp hb).symm (hev b)

theorem slots_step {ev : SiteEvent} (hslots : ∀ (k t : ℕ), st.txnQueue[k]? = some (some t) ↔
      PlacedBy evs k t) (hon : Onward st st') (hstep : siteStep site st ev = some st')
    (k t : ℕ) : st'.txnQueue[k]? = some (some t) ↔ PlacedBy (evs ++ [ev]) k t := by
  cases ev with
  | submitTxn cmds => exact slots_kept hslots (onSubmitTxn_queue hstep).queue (fun b h => by cases h) k t
  | sendBatch b =>
    have hok := ok_of_toOption hstep
    constructor
    · intro hslot
      rcases onSendBatch_slot hok hslot with hold | ⟨i, p, hp, hrest⟩
      · obtain ⟨b', i, p, hb', hrest⟩ := (hslots k t).mp hold
        exact ⟨b', i, p, mem_append_left _ hb', hrest⟩
      · exact ⟨b, i, p, mem_append_right _ mem_cons_self, hp, hrest⟩
    · rintro ⟨b', i, p, hb', hp, rfl, rfl⟩
      rcases mem_append.mp hb' with hb' | hb'
      · exact hon.queue _ _ ((hslots _ _).mpr ⟨b', i, p, hb', hp, rfl, rfl⟩)
      · cases mem_singleton.mp hb'
        exact onSendBatch_filled hok hp
  | sendDepValues u values =>
    obtain rfl := some.inj hstep
    exact slots_kept hslots (onSendDepValues_queue site u values st).queue (fun b h => by cases h) k t
  | sendTxnOutput u par output =>
    have hkept : QueueKept st st' := onSendTxnOutput_queue
      (show st.onSendTxnOutput site u par output = some st' from hstep)
    exact slots_kept hslots hkept.queue (fun b h => by cases h) k t

theorem Stocks.receive {t par : ℕ} {d : TxSlog} (hmade : w.Made site) (hl : Logged site st)
    (h : Stocks site w evs st) (hd : st.dtxns.find t = some d) :
    Stocks site w evs (st.receive site t par d) := by
  have hstock := h.records t d hd
  exact h.set hmade hl (onward_receive hd) rfl rfl
    ⟨hstock.nLocal, hstock.length, hstock.pieces, hstock.dreqs, hstock.ended⟩

/-- Values that came before and come with this event are pending or handed over. -/
theorem Kept.came_step {ev : SiteEvent} (hmade : w.Made site) (h : Kept site w evs st)
    (hev : w.Brings site st ev) (hpending : (w.supply site (evs ++ [ev])).Pending st)
    (hstep : siteStep site st ev = some st') : Stocks site w (evs ++ [ev]) st' ∧
      Came (fun t values => .sendDepValues t values ∈ evs ++ [ev]) st' := by
  have hstocks : Stocks site w (evs ++ [ev]) st := h.stocks.more (subset_append_left _ _)
  have hold : (∀ t values, ev ≠ .sendDepValues t values) →
      Came (fun t values => .sendDepValues t values ∈ evs ++ [ev]) st := by
    intro hne t values hin
    refine h.came t values ((mem_append.mp hin).resolve_right fun hin => ?_)
    exact hne t values (mem_singleton.mp hin).symm
  have hallow := hev.allows evs
  cases ev with
  | submitTxn cmds =>
    exact stocks_moves hmade h.sound h.logged hstocks (hold fun _ _ h => by cases h)
      (onSubmitTxn_moves hev.1 hallow hstep)
  | sendBatch b =>
    exact stocks_moves hmade h.sound h.logged hstocks (hold fun _ _ h => by cases h)
      (onSendBatch_moves hev.1 hallow (ok_of_toOption hstep) h.sound hpending)
  | sendDepValues t values =>
    obtain rfl := some.inj hstep
    obtain ⟨st1, hfirst, hrest, hgot⟩ := onSendDepValues_first site h.sound hallow
    have hs1 := h.sound.move hfirst
    refine stocks_moves hmade hs1 (h.logged.move hfirst)
      (hstocks.move hmade h.sound h.logged hfirst) (fun u values' hin => ?_) hrest
    rcases mem_append.mp hin with hin | hin
    · exact h.came.move hmade hstocks hfirst u values' hin
    · cases mem_singleton.mp hin
      refine hgot.imp_right fun ⟨d, hd, hmerged⟩ => ⟨d.merge values, hmerged, ?_⟩
      exact has_merge ((hstocks.records t d hd).declared hmade) values
  | sendTxnOutput t par output =>
    have hcame := hold fun _ _ h => by cases h
    obtain ⟨d, hd, ⟨-, rfl⟩ | ⟨-, rfl⟩⟩ := onSendTxnOutput_cases output hstep
    · exact ⟨hstocks, hcame⟩
    · exact ⟨hstocks.receive hmade h.logged hd,
        hcame.kept hmade hstocks (onward_receive hd) (List.Subset.refl _)⟩

theorem Kept.step {ev : SiteEvent} (hmade : w.Made site) (h : Kept site w evs st)
    (hev : w.Brings site st ev) (hstep : siteStep site st ev = some st') :
    Kept site w (evs ++ [ev]) st' := by
  have hpending : (w.supply site (evs ++ [ev])).Pending st := fun e he =>
    (h.pending e he).imp_right fun hin => mem_append_left _ hin
  obtain ⟨hstocks, hcame⟩ := h.came_step hmade hev hpending hstep
  have hboth : (w.supply site (evs ++ [ev])).Pending st' ∧ Onward st st' := by
    rcases siteStep_cases h.sound hev.1 hpending (hev.allows evs) hstep with
      hmoves | ⟨t, par, output, d, -, hd, -, rfl⟩
    · exact ⟨moves_pending hmoves hpending, moves_onward hmoves⟩
    · exact ⟨hpending, onward_receive hd⟩
  exact ⟨h.sound.step hev.1 hstep, h.logged.step h.sound hev.1 hstep,
    settled_step h.sound h.logged h.settled hev.1 hstep, hstocks, hcame, hboth.1,
    idle_step h.sound h.idle hev.1 hstep, slots_step h.slots hboth.2 hstep⟩

theorem kept_run (hmade : w.Made site) {db : DB}
    (hevs : Along (siteStep site) (w.Brings site) { db := db } evs)
    (hrun : run (siteStep site) { db := db } evs = some st) : Kept site w evs st :=
  run_history (I := Kept site w) (fun _ _ _ _ h hC hs => h.step hmade hC hs)
    (Kept.init site w db) hevs hrun

end

/-! ### Pieces that have their inputs -/

section

variable {DB : Type} {site : Site DB} {w : Workload} {evs evs' : List SiteEvent} {st st' : Sched DB}
  {t k j : ℕ} {c : SimpleCommand}

/-- No variable is delivered with two values. -/
def OneValue (site : Site DB) (w : Workload) (evs : List SiteEvent) (ran : List Execution) : Prop :=
  ∀ t x v v', Delivered site w evs ran t x v → Delivered site w evs ran t x v' → v = v'

/-- The inputs of a piece: what it waited for as delivered, the others as it came with them. -/
structure RanWith (D : ℕ → Value → Prop) (c : SimpleCommand) (input : TxnWorkspace) : Prop where
  keys : input.keys = c.input.keys
  delivered : ∀ x v, c.missing x → D x v → input.values.find x = some v
  others : ∀ x, ¬ c.missing x → input.values.find x = c.input.values.find x

/-- A piece of a queued transaction whose inputs were delivered, and that waits for no earlier
    transaction, was executed once, by its handler and with these inputs. -/
def ExecutedOnce (site : Site DB) (w : Workload) (evs : List SiteEvent) (st : Sched DB) : Prop :=
  ∀ (t k j : ℕ) (c : SimpleCommand), (w.pieces site t)[k]? = some c →
    st.txnQueue[j]? = some (some t) →
    (∀ x, c.missing x → ∃ v, Delivered site w evs st.ran t x v) →
    st.Unhindered site j c.innId → st.unfinished j ≤ site.maxPendingTxns →
      (st.ran.map Execution.key).count (t, k) = 1 ∧ ∃ e ∈ st.ran, e.key = (t, k) ∧
        e.handled = true ∧ RanWith (Delivered site w evs st.ran t) c e.input

theorem Kept.piece (h : Kept site w evs st) (hc : (w.pieces site t)[k]? = some c) {d : TxSlog}
    (hd : st.dtxns.find t = some d) : ∃ c', d.pieces[k]? = some c' ∧
      Stocked (Delivered site w evs st.ran t) c c' := by
  have hstock := h.stocks.records t d hd
  have hlt : k < d.pieces.length := hstock.length ▸ (List.getElem?_eq_some_iff.mp hc).1
  have hget := getElem?_eq_getElem hlt
  obtain ⟨c0, hc0, hstocked⟩ := hstock.pieces k _ hget
  obtain rfl : c0 = c := some.inj (hc0.symm.trans hc)
  exact ⟨_, hget, hstocked⟩

theorem Kept.not_missing (h : Kept site w evs st) (hslot : st.txnQueue[j]? = some (some t))
    {d : TxSlog} (hd : st.dtxns.find t = some d) (hc : c ∈ d.pieces) {x : ℕ} {v : Value}
    (hdel : Delivered site w evs st.ran t x v) : ¬ c.missing x := by
  rcases hdel with ⟨values, hin, hv⟩ | ⟨e, he, rfl, hv⟩
  · rcases h.came t values hin with hpend | ⟨d', hd', hhas⟩
    · exact absurd (mem_of_getElem? hslot) (h.idle _ hpend)
    · obtain rfl : d' = d := some.inj (hd'.symm.trans hd)
      exact hhas c hc (x, v) hv
  · exact h.stocks.own e he d hd c hc (x, v) hv

theorem executed_of_delivered (hmade : w.Made site) (h : Kept site w evs st)
    (hc : (w.pieces site t)[k]? = some c) (hslot : st.txnQueue[j]? = some (some t))
    (hall : ∀ x, c.missing x → ∃ v, Delivered site w evs st.ran t x v)
    (hfree : st.Unhindered site j c.innId) (hfew : st.unfinished j ≤ site.maxPendingTxns) :
    Among st.ran t k := by
  obtain ⟨d, hd⟩ := h.sound.known j t hslot
  obtain ⟨c', hc', hstocked⟩ := h.piece hc hd
  have hdecl := hmade.declared t c (mem_of_getElem? hc)
  have hin := mem_of_getElem? hc'
  rw [← h.logged.marked t d k c' hd hc']
  by_contra hno
  have hready : c'.input.pieceInputReady = true := by
    refine (ready_iff (hstocked.declared hdecl)).mpr fun x => ?_
    by_cases hx : c.missing x
    · obtain ⟨v, hv⟩ := hall x hx
      exact h.not_missing hslot hd hin hv
    · exact (hstocked.kept hdecl hx).1
  have hrun : c'.runnable = true := by
    rw [SimpleCommand.runnable, hready, eq_false_of_ne_true hno]
    rfl
  have hreached : st.Reached site j := by
    refine ⟨fun i hi => ?_, hfew⟩
    obtain ⟨u, e, hue, -⟩ := hfree i hi
    exact ⟨u, hue.1⟩
  rcases h.settled j hreached t d ⟨hslot, hd⟩ with hx | ⟨-, hnone⟩
  · exact hno ((h.sound.counted t d hd).complete hx c' hin)
  · exact hnone c' hin hrun (hstocked.fed.innId ▸ hfree)

theorem ranWith_entry (hmade : w.Made site) (h : Kept site w evs st)
    (hone : OneValue site w evs st.ran) {x : Execution} (hx : x ∈ st.ran)
    (hc : (w.pieces site x.txn)[x.piece]? = some c) :
    x.handled = true ∧ RanWith (Delivered site w evs st.ran x.txn) c x.input := by
  obtain ⟨p, hp⟩ := mem_iff_getElem?.mp hx
  have hentry := h.stocks.entries p x hp
  obtain ⟨c0, c', hc0, hstocked, hready, hinput⟩ := hentry.piece
  obtain rfl : c0 = c := some.inj (hc0.symm.trans hc)
  have hdecl := hmade.declared _ c0 (mem_of_getElem? hc)
  refine ⟨hentry.handled, ?_, fun y v hy hv => ?_, fun y hy => ?_⟩
  · rw [hinput, hstocked.keys]
  · obtain ⟨v', hv', hfind⟩ := hstocked.value hdecl hready hy
    rw [hinput, hfind]
    exact congrArg some (hone _ y v' v (hv'.mono (List.Subset.refl _) (take_subset _ _)) hv)
  · rw [hinput]
    exact (hstocked.kept hdecl hy).2

theorem executedOnce_of_kept (hmade : w.Made site) (h : Kept site w evs st)
    (hone : OneValue site w evs st.ran) : ExecutedOnce site w evs st := by
  intro t k j c hc hslot hall hfree hfew
  obtain ⟨x, hx, rfl, rfl⟩ := executed_of_delivered hmade h hc hslot hall hfree hfew
  refine ⟨count_eq_one_of_mem h.logged.once (mem_map_of_mem (f := Execution.key) hx), ?_⟩
  exact ⟨x, hx, rfl, ranWith_entry hmade h hone hx hc⟩

/-! ### Two orders of the same messages -/

/-- The same inputs. -/
def SameInput (ws ws' : TxnWorkspace) : Prop :=
  ws'.keys = ws.keys ∧ ∀ x, ws'.values.find x = ws.values.find x

/-- Pieces executed with the same inputs return the same to the pieces that wait at the partition. -/
def SameShares (site : Site DB) (w : Workload) (st st' : Sched DB) : Prop :=
  ∀ e ∈ st.ran, ∀ e' ∈ st'.ran, e'.key = e.key → SameInput e.input e'.input →
    share site.parId (w.pieces site e.txn) e'.output =
      share site.parId (w.pieces site e.txn) e.output

/-- What is executed in `st` is executed in `st'`, with the same inputs. -/
def AlsoExecuted (st st' : Sched DB) : Prop :=
  ∀ e ∈ st.ran, ∃ e' ∈ st'.ran, e'.key = e.key ∧ SameInput e.input e'.input

theorem PlacedBy.same (hevs : ∀ ev, ev ∈ evs ↔ ev ∈ evs') (h : PlacedBy evs k t) :
    PlacedBy evs' k t := by
  obtain ⟨b, i, p, hb, hrest⟩ := h
  exact ⟨b, i, p, (hevs _).mp hb, hrest⟩

theorem Kept.done (h : Kept site w evs st) (hslot : st.txnQueue[j]? = some (some t))
    (hreached : st.Reached site j) (hended : w.Ended site st.ran t) : st.done j = true := by
  obtain ⟨d, hd⟩ := h.sound.known j t hslot
  have hstock := h.stocks.records t d hd
  refine done_iff.mpr ⟨t, d, ⟨hslot, hd⟩, ?_⟩
  rcases h.settled j hreached t d ⟨hslot, hd⟩ with hx | ⟨hopen, -⟩
  · exact hx
  · have hall : ∀ c ∈ d.pieces, c.localExecuted = true := by
      intro c hc
      obtain ⟨i, hi⟩ := mem_iff_getElem?.mp hc
      refine (h.logged.marked t d i c hd hi).mpr (hended.2 i ?_)
      rw [← hstock.length]
      exact (List.getElem?_eq_some_iff.mp hi).1
    have hfin : d.finished = true := by
      refine decide_eq_true ?_
      rw [hstock.nLocal, hended.1, (h.sound.counted t d hd).nExecuted,
        countP_eq_length.mpr hall, hstock.length]
    cases hopen.symm.trans hfin

theorem Kept.unfinished_le (h : Kept site w evs st) {f : ℕ → Bool}
    (hfew : (range j).countP (fun i => !f i) ≤ site.maxPendingTxns)
    (hfilled : ∀ i < j, ∃ u, st.txnQueue[i]? = some (some u))
    (hended : ∀ i < j, f i = true → ∃ u, st.txnQueue[i]? = some (some u) ∧
      w.Ended site st.ran u) : st.unfinished j ≤ site.maxPendingTxns := by
  have hle : ∀ i ≤ j, (∀ i' < i, f i' = true → st.done i' = true) →
      st.unfinished i ≤ site.maxPendingTxns := by
    intro i hi hdone
    refine le_trans ?_ hfew
    refine le_trans (countP_mono_left fun i' hi' hno => ?_)
      (List.Sublist.countP_le (range_sublist.mpr hi))
    rw [Bool.not_eq_true'] at hno ⊢
    exact eq_false_of_ne_true fun hfi => by
      rw [hdone i' (mem_range.mp hi') hfi] at hno
      cases hno
  refine hle j le_rfl fun i hi => ?_
  induction i using Nat.strong_induction_on with
  | _ i ih =>
    intro hfi
    obtain ⟨u, hu, hend⟩ := hended i hi hfi
    refine h.done hu ⟨fun i' hi' => hfilled i' (hi'.trans hi), ?_⟩ hend
    exact hle i hi.le fun i' hi' => ih i' hi' (hi'.trans hi)

/-- Whatever was executed in one run is executed in the other: its inputs come from messages, which
    are the same, or from earlier executions, and it waits for earlier executions alone. -/
theorem alsoExecuted_of_kept (hmade : w.Made site) (h : Kept site w evs st)
    (h' : Kept site w evs' st') (hevs : ∀ ev, ev ∈ evs ↔ ev ∈ evs')
    (hone : OneValue site w evs' st'.ran) (hshares : SameShares site w st st') :
    AlsoExecuted st st' := by
  have hslots : ∀ {i u : ℕ}, st.txnQueue[i]? = some (some u) → st'.txnQueue[i]? = some (some u) :=
    fun hu => (h'.slots _ _).mpr (((h.slots _ _).mp hu).same hevs)
  suffices hall : ∀ (p : ℕ) (x : Execution), st.ran[p]? = some x →
      ∃ x' ∈ st'.ran, x'.key = x.key ∧ SameInput x.input x'.input by
    intro x hx
    obtain ⟨p, hp⟩ := mem_iff_getElem?.mp hx
    exact hall p x hp
  intro p
  induction p using Nat.strong_induction_on with
  | _ p ih =>
  intro x hp
  have hbefore : ∀ e ∈ st.ran.take p, ∃ e' ∈ st'.ran, e'.key = e.key ∧ SameInput e.input e'.input := by
    intro e he
    obtain ⟨q, hq⟩ := mem_iff_getElem?.mp he
    rw [getElem?_take] at hq
    obtain ⟨hqp, hq⟩ := ite_none_right_eq_some.mp hq
    exact ih q hqp e hq
  have hamong : ∀ {u i : ℕ}, Among (st.ran.take p) u i → Among st'.ran u i := by
    rintro u i ⟨e, he, rfl, rfl⟩
    obtain ⟨e', he', hkey, -⟩ := hbefore e he
    exact ⟨e', he', congrArg fst hkey, congrArg snd hkey⟩
  have hdel : ∀ {u y : ℕ} {v : Value}, Delivered site w evs (st.ran.take p) u y v →
      Delivered site w evs' st'.ran u y v := by
    rintro u y v (⟨values, hin, hv⟩ | ⟨e, he, rfl, hv⟩)
    · exact .inl ⟨values, (hevs _).mp hin, hv⟩
    · obtain ⟨e', he', hkey, hsame⟩ := hbefore e he
      refine .inr ⟨e', he', congrArg fst hkey, ?_⟩
      rw [hshares e (mem_of_mem_take he) e' he' hkey hsame]
      exact hv
  have hentry := h.stocks.entries p x hp
  obtain ⟨c, cx, hc, hstocked, hready, hinput⟩ := hentry.piece
  obtain ⟨j, hj, f, hfew, hended⟩ := hentry.few
  have hdecl := hmade.declared _ c (mem_of_getElem? hc)
  obtain ⟨d, hd⟩ := h.sound.known j _ hj
  obtain ⟨cd, hcd, hstockedd⟩ := h.piece hc hd
  have hordered := h.logged.ordered p x hp j d cd ⟨hj, hd⟩ hcd
  have hfilled : ∀ i < j, ∃ u, st'.txnQueue[i]? = some (some u) := fun i hi => by
    obtain ⟨u, e, hue, -⟩ := hordered i hi
    exact ⟨u, hslots hue.1⟩
  have hfree : st'.Unhindered site j c.innId := by
    intro i hi
    obtain ⟨u, e, hue, hconf⟩ := hordered i hi
    obtain ⟨e', he'⟩ := h'.sound.known i u (hslots hue.1)
    refine ⟨u, e', ⟨hslots hue.1, he'⟩, fun b' hb' hno => ?_⟩
    -- an unexecuted piece has not been executed in the other run
    obtain ⟨i', hi'⟩ := mem_iff_getElem?.mp hb'
    obtain ⟨b0, hb0, hstocked'⟩ := (h'.stocks.records u e' he').pieces i' b' hi'
    obtain ⟨b, hb, hstockedb⟩ := h.piece hb0 hue.2
    by_contra hyes
    have hexec := hamong (hconf i' b hb (by
      rw [hstockedb.fed.innId, hstockedd.fed.innId, ← hstocked'.fed.innId]
      exact eq_true_of_ne_false hyes))
    rw [← h'.logged.marked u e' i' b' he' hi', hno] at hexec
    cases hexec
  have hfew' : st'.unfinished j ≤ site.maxPendingTxns := by
    refine h'.unfinished_le hfew hfilled fun i hi hfi => ?_
    obtain ⟨u, hu, hnLocal, hexec⟩ := hended i hi hfi
    exact ⟨u, hslots hu, hnLocal, fun k hk => hamong (hexec k hk)⟩
  have hvalue : ∀ y, c.missing y → ∃ v, Delivered site w evs' st'.ran x.txn y v ∧
      x.input.values.find y = some v := fun y hy => by
    obtain ⟨v, hv, hfind⟩ := hstocked.value hdecl hready hy
    exact ⟨v, hdel hv, hinput ▸ hfind⟩
  obtain ⟨x', hx', htxn, hpiece⟩ := executed_of_delivered hmade h' hc (hslots hj)
    (fun y hy => let ⟨v, hv, _⟩ := hvalue y hy; ⟨v, hv⟩) hfree hfew'
  have hwith := (ranWith_entry (c := c) hmade h' hone hx' (by rw [htxn, hpiece]; exact hc)).2
  refine ⟨x', hx', Prod.ext htxn hpiece, ?_, fun y => ?_⟩
  · rw [hwith.keys, hinput, hstocked.keys]
  · by_cases hy : c.missing y
    · obtain ⟨v, hv, hfind⟩ := hvalue y hy
      rw [hfind]
      exact hwith.delivered y v hy (htxn ▸ hv)
    · rw [hwith.others y hy, hinput]
      exact (hstocked.kept hdecl hy).2.symm

/-- In every run a piece whose inputs were delivered, and that waits for no earlier transaction, was
    executed once and with these inputs; and every other order of the messages executes the same
    pieces with the same inputs, provided pieces with the same inputs return the same to those that
    wait for them at the partition. -/
theorem delivered_executed_once (site : Site DB) (w : Workload) (hmade : w.Made site) (db : DB)
    (evs : List SiteEvent) (st : Sched DB)
    (hevs : Along (siteStep site) (w.Brings site) { db := db } evs)
    (hrun : run (siteStep site) { db := db } evs = some st) (hone : OneValue site w evs st.ran) :
    ExecutedOnce site w evs st ∧ ∀ evs' st', (∀ ev, ev ∈ evs ↔ ev ∈ evs') →
      Along (siteStep site) (w.Brings site) { db := db } evs' →
      run (siteStep site) { db := db } evs' = some st' → OneValue site w evs' st'.ran →
      SameShares site w st st' → AlsoExecuted st st' ∧ AlsoExecuted st' st := by
  have hkept := kept_run hmade hevs hrun
  refine ⟨executedOnce_of_kept hmade hkept hone, fun evs' st' hsame hevs' hrun' hone' hshares => ?_⟩
  have hkept' := kept_run hmade hevs' hrun'
  refine ⟨alsoExecuted_of_kept hmade hkept hkept' hsame hone' hshares, ?_⟩
  refine alsoExecuted_of_kept hmade hkept' hkept (fun ev => (hsame ev).symm) hone ?_
  intro e' he' e he hkey hinput
  have htxn : e.txn = e'.txn := congrArg fst hkey
  rw [← htxn]
  exact (hshares e he e' he' hkey.symm ⟨hinput.1.symm, fun x => (hinput.2 x).symm⟩).symm

end

instance decidableBrings {DB : Type} (site : Site DB) (w : Workload) (st : Sched DB) :
    ∀ ev, Decidable (w.Brings site st ev)
  | .submitTxn cmds => inferInstanceAs (Decidable (Fresh site st (.submitTxn cmds) ∧
      ∀ t ∈ site.txnId cmds, cmds = w.txns t ∧ w.here t = true))
  | .sendBatch b => inferInstanceAs (Decidable (Fresh site st (.sendBatch b) ∧
      ∀ p ∈ b.cmds, p.2 = w.pieces site p.1 ∧ (w.here p.1 = true → (st.dtxns.find p.1).isSome)))
  | .sendDepValues _ _ => isTrue ⟨trivial, trivial⟩
  | .sendTxnOutput _ _ _ => isTrue ⟨trivial, trivial⟩

/-- Transactions that wait for variable 7, but for `last`. -/
def waitingTxns (last : ℕ) : Workload where
  txns t := onePiece.set 0 (if t = last then [{ innId := 2, type := 1 }] else [waitingPiece])
  here _ := false

theorem pieces_waitingTxns (last t : ℕ) : (waitingTxns last).pieces oneByOne t =
    if t = last then [{ innId := 2, type := 1 }] else [waitingPiece] := by
  have hfind : ((waitingTxns last).txns t).find oneByOne.parId = some _ := OrdMap.find_set_self _ _ _
  rw [Workload.pieces, hfind, getD_some]

theorem made_waitingTxns (last : ℕ) : (waitingTxns last).Made oneByOne := by
  refine ⟨fun t c hc => ?_, fun t => ?_⟩
  · rw [pieces_waitingTxns] at hc
    split at hc
    · rw [mem_singleton.mp hc]
      exact ⟨nodup_nil, fun h => (Bool.false_ne_true h.symm).elim, rfl⟩
    · rw [mem_singleton.mp hc]
      refine ⟨nodup_singleton 7, fun _ x => ?_, rfl⟩
      rw [← Dict.mem_keys]
      exact Iff.rfl
  · rw [pieces_waitingTxns]
    split <;> exact nodup_singleton _

theorem oneValue_waiting {evs : List SiteEvent} {ran : List Execution}
    (hevs : ∀ t values, .sendDepValues t values ∈ evs → values = ⟨[(7, .i32 3)]⟩)
    (hran : ∀ e ∈ ran, e.output = {}) : OneValue oneByOne (waitingTxns 11) evs ran := by
  have hvalue : ∀ {t x v}, Delivered oneByOne (waitingTxns 11) evs ran t x v → v = .i32 3 := by
    rintro t x v (⟨values, hin, hv⟩ | ⟨e, he, -, hv⟩)
    · rw [hevs t values hin] at hv
      exact (mk.inj (mem_singleton.mp hv)).2
    · rw [hran e he, share, ite_self] at hv
      cases hv
  exact fun t x v v' h h' => (hvalue h).trans (hvalue h').symm

theorem sameShares_of_empty {st st' : Sched Unit} (h : ∀ e ∈ st.ran, e.output = {})
    (h' : ∀ e ∈ st'.ran, e.output = {}) : SameShares oneByOne (waitingTxns 11) st st' := by
  intro e he e' he' _ _
  rw [h e he, h' e' he']

/-- A value that comes before the transaction, or after it. -/
theorem delivered_executed_waiting : ∃ st, run (siteStep oneByOne) { db := () }
      [.sendDepValues 10 ⟨[(7, .i32 3)]⟩, .sendBatch waitingBatch] = some st ∧
    st.ran.map Execution.key = [(10, 0), (11, 0)] ∧
    ExecutedOnce oneByOne (waitingTxns 11)
      [.sendDepValues 10 ⟨[(7, .i32 3)]⟩, .sendBatch waitingBatch] st ∧
    ∃ st', run (siteStep oneByOne) { db := () }
        [.sendBatch waitingBatch, .sendDepValues 10 ⟨[(7, .i32 3)]⟩] = some st' ∧
      AlsoExecuted st st' ∧ AlsoExecuted st' st := by
  have hvalues : ∀ (evs : List SiteEvent), evs ⊆ [.sendDepValues 10 ⟨[(7, .i32 3)]⟩,
      .sendBatch waitingBatch] → ∀ t values, .sendDepValues t values ∈ evs →
        values = ⟨[(7, .i32 3)]⟩ := by
    intro evs hsub t values hin
    rcases mem_cons.mp (hsub hin) with heq | hin
    · cases heq
      rfl
    · cases mem_singleton.mp hin
  have hswap : ∀ ev, ev ∈ [SiteEvent.sendDepValues 10 ⟨[(7, .i32 3)]⟩, .sendBatch waitingBatch] ↔
      ev ∈ [SiteEvent.sendBatch waitingBatch, .sendDepValues 10 ⟨[(7, .i32 3)]⟩] := fun ev => by
    rw [mem_pair, mem_pair, or_comm]
  obtain ⟨honce, hsame⟩ := delivered_executed_once oneByOne (waitingTxns 11) (made_waitingTxns 11) ()
    [.sendDepValues 10 ⟨[(7, .i32 3)]⟩, .sendBatch waitingBatch] _ (by decide) rfl
    (oneValue_waiting (hvalues _ (List.Subset.refl _)) (by decide))
  refine ⟨_, rfl, by decide, honce, _, rfl, hsame _ _ hswap (by decide) rfl
    (oneValue_waiting (hvalues _ fun ev hev => (hswap ev).mpr hev) (by decide))
    (sameShares_of_empty (by decide) (by decide))⟩

/-- The same site with no conflicts. -/
def unrelated : Site Unit := { oneByOne with checkPieceConflict := fun _ _ => false }

/-- Six transactions that wait, and one that does not. -/
def longBatch : Batch where
  startIndex := 0
  cmds := (range 6).map (fun i => (10 + i, [waitingPiece])) ++ [(16, [{ innId := 2, type := 1 }])]
  coordSites := (range 7).map fun i => (10 + i, 5)
  allTouchedShards := (range 7).map fun i => (10 + i, [0])

/-- A site without conflicts that keeps a counter: pieces of type 2 return it in variable 7, those of
    type 3 count. -/
def counting : Site ℕ where
  siteId := 1
  parId := 0
  rootId c := c.innId
  handler _ type _ n := (if type = 2 then ⟨[(7, .i32 n)]⟩ else {}, if type = 3 then n + 1 else n)

/-- A piece that waits for variable 8 and returns variable 7 to its partition. -/
def readingPiece : SimpleCommand where
  innId := 3
  type := 2
  input := ⟨⟨[8], pairwise_singleton _ _⟩, {}, ⟨[(8, false)]⟩, false⟩
  waitingVarParMap := ⟨[(7, [0])]⟩

/-- Transaction 10 reads the counter and uses what it has read, 11 counts. -/
def countingTxns : Workload where
  txns t := onePiece.set 0 (if t = 10 then [readingPiece, waitingPiece] else
    [{ innId := 2, type := 3 }])
  here _ := false

/-- The batch of transaction `10 + i`. -/
def countingBatch (i : ℕ) : Batch where
  startIndex := i
  cmds := [(10 + i, countingTxns.pieces counting (10 + i))]
  coordSites := [(10 + i, 5)]
  allTouchedShards := [(10 + i, [0])]

/-- The value of variable 8 comes before the second batch. -/
def earlyValue : List SiteEvent :=
  [.sendBatch (countingBatch 0), .sendDepValues 10 ⟨[(8, .i32 3)]⟩, .sendBatch (countingBatch 1)]

/-- It comes after it. -/
def lateValue : List SiteEvent :=
  [.sendBatch (countingBatch 0), .sendBatch (countingBatch 1), .sendDepValues 10 ⟨[(8, .i32 3)]⟩]

/-- The executions of a run, with what they took for variable 7. -/
def tookSeven (evs : List SiteEvent) : Option (List ((ℕ × ℕ) × Option Value)) :=
  (run (siteStep counting) { db := 0 } evs).map fun st =>
    st.ran.map fun e => (e.key, e.input.values.find 7)

/-- Transaction 11 has all its inputs and is not executed: it waits for 10, which conflicts with it. Nor
    is the last of seven where the six before it are unfinished, without any conflict. And where a
    piece returns to its partition what depends on more than its inputs, the piece that waits for it
    takes one value or another by the order of the messages. -/
theorem delivered_held_back : (∀ x, ¬ SimpleCommand.missing { innId := 2, type := 1 } x) ∧
    (∃ st, Along (siteStep oneByOne) ((waitingTxns 11).Brings oneByOne) { db := () }
        [.sendBatch waitingBatch] ∧
      run (siteStep oneByOne) { db := () } [.sendBatch waitingBatch] = some st ∧
      (waitingTxns 11).pieces oneByOne 11 = [{ innId := 2, type := 1 }] ∧
      st.txnQueue = [some 10, some 11] ∧ st.ran = []) ∧
    (∃ st, Along (siteStep unrelated) ((waitingTxns 16).Brings unrelated) { db := () }
        [.sendBatch longBatch] ∧
      run (siteStep unrelated) { db := () } [.sendBatch longBatch] = some st ∧
      (waitingTxns 16).pieces unrelated 16 = [{ innId := 2, type := 1 }] ∧
      st.txnQueue[6]? = some (some 16) ∧ st.ran = []) ∧
    (∀ evs ∈ [earlyValue, lateValue],
      Along (siteStep counting) (countingTxns.Brings counting) { db := 0 } evs) ∧
    tookSeven earlyValue = some [((10, 0), none), ((10, 1), some (.i32 0)), ((11, 0), none)] ∧
    tookSeven lateValue = some [((11, 0), none), ((10, 0), none), ((10, 1), some (.i32 1))] := by
  refine ⟨fun x hx => (by cases hx), ?_, ?_, by decide, by decide, by decide⟩
  · exact ⟨_, by decide, rfl, by decide, by decide, by decide⟩
  · exact ⟨_, by decide, rfl, by decide, by decide, by decide⟩

/-- No handler leaves work behind: in every run each transaction the walk over the queue comes to is
    executed, or its ready pieces all wait for earlier ones, and no values pend for it. -/
theorem no_work_left {DB : Type} (site : Site DB) (db : DB) (evs : List SiteEvent)
    (hfresh : Along (siteStep site) (Fresh site) { db := db } evs) :
    Throughout (siteStep site) (fun st => st.Settled site ∧ st.Idle) { db := db } evs := by
  have hinit := Kept.init site ⟨fun _ => {}, fun _ => true⟩ db
  have hinv : Throughout (siteStep site)
      (fun st => (Sound st ∧ Logged site st) ∧ st.Settled site ∧ st.Idle) { db := db } evs :=
    throughout_of_inv (fun _ _ _ h hC hstep =>
      ⟨⟨h.1.1.step hC hstep, h.1.2.step h.1.1 hC hstep⟩, settled_step h.1.1 h.1.2 h.2.1 hC hstep,
        idle_step h.1.1 h.2.2 hC hstep⟩)
      ⟨⟨hinit.sound, hinit.logged⟩, hinit.settled, hinit.idle⟩ hfresh
  exact throughout_mono (fun _ h => h.2) hinv

theorem no_work_left_waiting : Throughout (siteStep oneByOne)
    (fun st => st.Settled oneByOne ∧ st.Idle) { db := () } [.sendBatch waitingBatch] :=
  no_work_left oneByOne () _ (by decide)

end Fiss.Slog
