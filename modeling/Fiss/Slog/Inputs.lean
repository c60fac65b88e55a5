import Fiss.Slog.Settled

/-! Where the inputs of pieces come from: values delivered by other partitions, and outputs of the
    transaction's own pieces. A piece misses no variable that was handed to its transaction, and what
    it holds was delivered. Each execution is on record with the inputs it ran with. -/

namespace Fiss.Slog
open Fiss.Rcc List Option Dict SimpleCommand

/-! ### What comes to a site -/

/-- The transactions, and which of them are submitted at the site. -/
structure Workload where
  txns : ℕ → Cmds
  here : ℕ → Bool

section Workload

variable {DB : Type}

/-- The pieces of a transaction for the partition. -/
def Workload.pieces (w : Workload) (site : Site DB) (t : ℕ) : List SimpleCommand :=
  ((w.txns t).find site.parId).getD []

/-- How many pieces the record of a transaction counts. -/
def Workload.nLocal (w : Workload) (site : Site DB) (t : ℕ) : ℤ :=
  if w.here t then ((site.newTx t).own site (w.txns t)).nLocalPieces
  else (w.pieces site t).length

/-- Pieces as coordinators make them: inputs as declared, and no `inn_id` twice. -/
structure Workload.Made (w : Workload) (site : Site DB) : Prop where
  declared : ∀ t, ∀ c ∈ w.pieces site t, c.input.Declared
  ids : ∀ t, ((w.pieces site t).map innId).Nodup

/-- The messages bring these transactions, each once. One that is submitted here comes in a batch only
    after that, since its submission is what gets it into the batches. -/
def Workload.Brings (site : Site DB) (w : Workload) (st : Sched DB) (ev : SiteEvent) : Prop :=
  Fresh site st ev ∧ match ev with
    | .submitTxn cmds => ∀ t ∈ site.txnId cmds, cmds = w.txns t ∧ w.here t = true
    | .sendBatch b => ∀ p ∈ b.cmds, p.2 = w.pieces site p.1 ∧
        (w.here p.1 = true → (st.dtxns.find p.1).isSome)
    | _ => True

/-- A value of a variable for transaction `t`: from another partition, or from the output of one of
    its own pieces that the partition waits for. -/
def Delivered (site : Site DB) (w : Workload) (evs : List SiteEvent) (ran : List Execution)
    (t x : ℕ) (v : Value) : Prop :=
  (∃ values, .sendDepValues t values ∈ evs ∧ (x, v) ∈ values.entries) ∨
    ∃ e ∈ ran, e.txn = t ∧ (x, v) ∈ share site.parId (w.pieces site t) e.output

/-- What the events so far may have brought. -/
def Workload.supply (site : Site DB) (w : Workload) (evs : List SiteEvent) : Supply where
  values t values := values = {} ∨ .sendDepValues t values ∈ evs
  records t d := d.pieces = (w.pieces site t).map clear ∧
    d.nLocalPieces = w.nLocal site t
  nothing _ := .inl rfl

theorem own_record (site : Site DB) (w : Workload) (t : ℕ) (hhere : w.here t = true) :
    ((site.newTx t).own site (w.txns t)).pieces = (w.pieces site t).map clear ∧
      ((site.newTx t).own site (w.txns t)).nLocalPieces = w.nLocal site t := by
  refine ⟨?_, by rw [Workload.nLocal, if_pos hhere]⟩
  rw [Workload.pieces, TxSlog.own]
  cases (w.txns t).find site.parId <;> rfl

theorem Workload.Brings.allows {site : Site DB} {w : Workload} {st : Sched DB} {ev : SiteEvent}
    (h : w.Brings site st ev) (evs : List SiteEvent) :
    (w.supply site (evs ++ [ev])).Allows site st ev := by
  cases ev with
  | submitTxn cmds =>
    intro t ht
    obtain ⟨rfl, hhere⟩ := h.2 t ht
    exact own_record site w t hhere
  | sendBatch b =>
    intro p hp hno coord
    obtain ⟨hpieces, hhere⟩ := h.2 p hp
    have hnot : w.here p.1 = false := eq_false_of_ne_true fun hx => by
      have hsome := hhere hx
      rw [hno] at hsome
      cases hsome
    refine ⟨by rw [← hpieces]; rfl, ?_⟩
    rw [Workload.nLocal, hnot, ← hpieces]
    rfl
  | sendDepValues t values => exact .inr (mem_append_right _ mem_cons_self)
  | sendTxnOutput => exact trivial

end Workload

/-! ### A piece and its inputs -/

/-- The piece `c` has grown from `c0`, and holds values that `D` knows. -/
structure Stocked (D : ℕ → Value → Prop) (c0 c : SimpleCommand) : Prop where
  fed : Fed c0.clear c
  sound : ∀ x, c0.missing x → c.missing x ∨ ∃ v, D x v ∧ c.holds x v

section Stocked

variable {D D' : ℕ → Value → Prop} {c0 c : SimpleCommand} {l : List (ℕ × Value)}

theorem Stocked.mono (h : Stocked D c0 c) (hD : ∀ x v, D x v → D' x v) : Stocked D' c0 c where
  fed := h.fed
  sound x hx := (h.sound x hx).imp_right fun ⟨v, hv, hholds⟩ => ⟨v, hD x v hv, hholds⟩

theorem Stocked.declared (h : Stocked D c0 c) (hdecl : c0.input.Declared) : c.input.Declared := by
  obtain ⟨l, hl⟩ := h.fed.offered
  rw [hl]
  exact offers_declared (c := c0.clear) hdecl l

theorem stocked_new (D : ℕ → Value → Prop) (c0 : SimpleCommand) : Stocked D c0 c0.clear :=
  ⟨fed_offers _ [], fun _ hx => .inl hx⟩

section
variable (h : Stocked D c0 c)
include h

theorem Stocked.mark : Stocked D c0 c.mark :=
  ⟨h.fed.trans (fed_mark c), h.sound⟩

theorem Stocked.offers (hdecl : c0.input.Declared)
    (hl : ∀ p ∈ l, D p.1 p.2) : Stocked D c0 (c.offers l) := by
  refine ⟨h.fed.trans (fed_offers c l), fun x hx => ?_⟩
  rcases h.sound x hx with hmiss | ⟨v, hv, hholds⟩
  · refine (offers_missing hmiss (waiting_of_missing (h.declared hdecl) hmiss).2 l).imp_right ?_
    rintro ⟨v, hv, hholds⟩
    exact ⟨v, hl _ (mem_entries_of_find (d := ⟨l⟩) hv), hholds⟩
  · exact .inr ⟨v, hv, offers_holds hholds⟩

theorem Stocked.kept (hdecl : c0.input.Declared) {x : ℕ}
    (hx : ¬ c0.missing x) : ¬ c.missing x ∧ c.input.values.find x = c0.input.values.find x := by
  obtain ⟨l, hl⟩ := h.fed.offered
  rw [hl]
  exact offers_keeps (c := c0.clear) hdecl hx l

theorem Stocked.value (hdecl : c0.input.Declared)
    (hready : c.input.pieceInputReady = true) {x : ℕ} (hx : c0.missing x) :
    ∃ v, D x v ∧ c.input.values.find x = some v := by
  rcases h.sound x hx with hmiss | ⟨v, hv, hholds⟩
  · exact absurd hmiss ((ready_iff (h.declared hdecl)).mp hready x)
  · exact ⟨v, hv, hholds.2⟩

theorem Stocked.keys : c.input.keys = c0.input.keys := by
  obtain ⟨l, hl⟩ := h.fed.offered
  rw [hl]
  exact keys_offers c0.clear l

end

theorem offers_not_missing {x : ℕ} {v : Value} (hdecl : c.input.Declared) (hin : (x, v) ∈ l) :
    ¬ (c.offers l).missing x := by
  by_cases hx : c.missing x
  · have hsome : (l.lookup x).isSome :=
      mem_keys (d := ⟨l⟩).mp (mem_map_of_mem (f := Prod.fst) hin)
    obtain ⟨u, hu⟩ := isSome_iff_exists.mp hsome
    intro hmiss
    cases hmiss.symm.trans (offers_takes hdecl hx hu).1
  · exact (offers_keeps hdecl hx l).1

end Stocked

/-! ### A record and its pieces -/

/-- No piece misses one of the variables. -/
def TxSlog.Has (d : TxSlog) (l : List (ℕ × Value)) : Prop :=
  ∀ c ∈ d.pieces, ∀ p ∈ l, ¬ c.missing p.1

/-- The record of a transaction with its pieces, stocked from `D`. -/
structure Stock {DB : Type} (site : Site DB) (w : Workload) (D : ℕ → Value → Prop) (t : ℕ)
    (d : TxSlog) : Prop where
  nLocal : d.nLocalPieces = w.nLocal site t
  length : d.pieces.length = (w.pieces site t).length
  pieces : ∀ (k : ℕ) (c : SimpleCommand), d.pieces[k]? = some c →
    ∃ c0, (w.pieces site t)[k]? = some c0 ∧ Stocked D c0 c
  /-- a piece that was dispatched is executed -/
  dreqs : ∀ y ∈ d.dreqs, ∃ c ∈ d.pieces, c.innId = y ∧ c.localExecuted = true
  ended : d.executed = true → d.nLocalPieces = d.pieces.length

section Stock

variable {DB : Type} {site : Site DB} {w : Workload} {D D' : ℕ → Value → Prop} {t : ℕ}
  {d d' : TxSlog} {l : List (ℕ × Value)}

theorem Stock.mono (h : Stock site w D t d) (hD : ∀ x v, D x v → D' x v) : Stock site w D' t d where
  nLocal := h.nLocal
  length := h.length
  pieces k c hc := by
    obtain ⟨c0, hc0, hstock⟩ := h.pieces k c hc
    exact ⟨c0, hc0, hstock.mono hD⟩
  dreqs := h.dreqs
  ended := h.ended

theorem Stock.declared (hmade : w.Made site) (h : Stock site w D t d) :
    ∀ c ∈ d.pieces, c.input.Declared := by
  intro c hc
  obtain ⟨k, hk⟩ := mem_iff_getElem?.mp hc
  obtain ⟨c0, hc0, hstock⟩ := h.pieces k c hk
  exact hstock.declared (hmade.declared t c0 (mem_of_getElem? hc0))

theorem TxSlog.Has.advanced (h : d.Has l) (hdecl : ∀ c ∈ d.pieces, c.input.Declared)
    (had : Advanced d d') : d'.Has l := by
  intro c' hc' p hp
  obtain ⟨k, hk⟩ := mem_iff_getElem?.mp hc'
  obtain ⟨c, hc, hfed⟩ := had.pieces k c' hk
  obtain ⟨o, ho⟩ := hfed.offered
  have hin := mem_of_getElem? hc
  rw [ho]
  exact (offers_keeps (hdecl c hin) (h c hin p hp) o).1

theorem has_merge (hdecl : ∀ c ∈ d.pieces, c.input.Declared) (values : Dict ℕ Value) :
    (d.merge values).Has values.entries := by
  intro c' hc' p hp
  rw [merge_pieces] at hc'
  obtain ⟨c, hc, rfl⟩ := mem_map.mp hc'
  exact offers_not_missing (v := p.2) (hdecl c hc) hp

theorem stock_new (D : ℕ → Value → Prop) (hnew : d.New)
    (hrecord : d.pieces = (w.pieces site t).map clear ∧
      d.nLocalPieces = w.nLocal site t) : Stock site w D t d where
  nLocal := hrecord.2
  length := by rw [hrecord.1, length_map]
  pieces k c hc := by
    rw [hrecord.1, getElem?_map] at hc
    obtain ⟨c0, hc0, rfl⟩ := map_eq_some_iff.mp hc
    exact ⟨c0, hc0, stocked_new D c0⟩
  dreqs y hy := by rw [hnew.dreqs] at hy; cases hy
  ended hx := by rw [hnew.executed] at hx; cases hx

theorem Stock.merge (hmade : w.Made site) (h : Stock site w D t d) {values : Dict ℕ Value}
    (hvalues : ∀ p ∈ values.entries, D p.1 p.2) : Stock site w D t (d.merge values) where
  nLocal := h.nLocal
  length := by rw [merge_pieces, length_map]; exact h.length
  pieces k c' hc' := by
    rw [merge_pieces, getElem?_map] at hc'
    obtain ⟨c, hc, rfl⟩ := map_eq_some_iff.mp hc'
    obtain ⟨c0, hc0, hstock⟩ := h.pieces k c hc
    exact ⟨c0, hc0, hstock.offers (hmade.declared t c0 (mem_of_getElem? hc0)) hvalues⟩
  dreqs y hy := by
    obtain ⟨c, hc, hid, hx⟩ := h.dreqs y hy
    refine ⟨c.offers values.entries, ?_, (innId_offers c _).trans hid, ?_⟩
    · rw [merge_pieces]
      exact mem_map_of_mem hc
    · rw [localExecuted_offers]
      exact hx
  ended hx := by rw [merge_pieces, length_map]; exact h.ended hx

theorem Stock.finish (hcounted : d.Counted) (h : Stock site w D t d) (hfin : d.finished = true) :
    Stock site w D t (d.finish site) where
  nLocal := h.nLocal
  length := h.length
  pieces := h.pieces
  dreqs := h.dreqs
  ended _ := by
    have heq : d.nLocalPieces = d.nExecutedPieces := of_decide_eq_true hfin
    have hall := countP_eq_length.mpr (hcounted.all hfin)
    rw [hcounted.nExecuted, hall] at heq
    exact heq

theorem Stock.share_pieces (h : Stock site w D t d) (output : Dict ℕ Value) :
    share site.parId d.pieces output = share site.parId (w.pieces site t) output := by
  refine share_congr ?_ output
  cases hhead : d.pieces.head? with
  | none =>
    have hlen := h.length
    rw [head?_eq_none_iff.mp hhead, length_nil, eq_comm, length_eq_zero_iff] at hlen
    rw [hlen]
    rfl
  | some c =>
    rw [head?_eq_getElem?] at hhead
    obtain ⟨c0, hc0, hstock⟩ := h.pieces 0 c hhead
    obtain ⟨l, hl⟩ := hstock.fed.offered
    rw [head?_eq_getElem?, hc0, map_some, map_some, hl]
    refine congrArg some ?_
    rw [offers_eq]
    rfl

theorem Stock.not_dispatched (hmade : w.Made site) (h : Stock site w D t d) {k : ℕ}
    {c : SimpleCommand} (hc : d.pieces[k]? = some c) (hno : c.localExecuted = false) :
    c.innId ∉ d.dreqs := by
  intro hin
  obtain ⟨c', hc', hid, hx⟩ := h.dreqs _ hin
  obtain ⟨k', hk'⟩ := mem_iff_getElem?.mp hc'
  obtain ⟨c0, hc0, hstock⟩ := h.pieces k c hc
  obtain ⟨c0', hc0', hstock'⟩ := h.pieces k' c' hk'
  have hids : c0'.innId = c0.innId := hstock'.fed.innId.symm.trans (hid.trans hstock.fed.innId)
  have hkk : k' = k := by
    refine (getElem?_inj ?_ (hmade.ids t)).mp ?_
    · rw [length_map]
      exact (List.getElem?_eq_some_iff.mp hc0').1
    · rw [getElem?_map, getElem?_map, hc0, hc0', map_some, map_some, hids]
  subst hkk
  rw [some.inj (hk'.symm.trans hc), hno] at hx
  cases hx

end Stock

/-! ### All records, and the executions -/

section

variable {DB : Type}

/-- All pieces of the transaction are counted and are among the executions. -/
def Workload.Ended (site : Site DB) (w : Workload) (before : List Execution) (t : ℕ) : Prop :=
  w.nLocal site t = (w.pieces site t).length ∧
    ∀ k < (w.pieces site t).length, Among before t k

/-- The execution `x`, with those before it: it ran with inputs delivered till then, and not too many
    earlier transactions had not ended. -/
structure Entry (site : Site DB) (w : Workload) (evs : List SiteEvent) (queue : List (Option ℕ))
    (before : List Execution) (x : Execution) : Prop where
  piece : ∃ c0 c, (w.pieces site x.txn)[x.piece]? = some c0 ∧
    Stocked (Delivered site w evs before x.txn) c0 c ∧ c.input.pieceInputReady = true ∧
      x.input = c.input
  handled : x.handled = true
  few : ∃ j, queue[j]? = some (some x.txn) ∧ ∃ f : ℕ → Bool,
    (range j).countP (fun i => !f i) ≤ site.maxPendingTxns ∧
      ∀ i < j, f i = true → ∃ t, queue[i]? = some (some t) ∧ w.Ended site before t

structure Stocks (site : Site DB) (w : Workload) (evs : List SiteEvent) (st : Sched DB) : Prop where
  records : ∀ t d, st.dtxns.find t = some d → Stock site w (Delivered site w evs st.ran t) t d
  /-- the pieces have what the own ones returned for them -/
  own : ∀ e ∈ st.ran, ∀ d, st.dtxns.find e.txn = some d →
    d.Has (share site.parId (w.pieces site e.txn) e.output)
  entries : ∀ (p : ℕ) (x : Execution), st.ran[p]? = some x →
    Entry site w evs st.txnQueue (st.ran.take p) x

variable {site : Site DB} {w : Workload} {evs evs' : List SiteEvent} {st st' : Sched DB} {t : ℕ}
  {d d' : TxSlog}

theorem Delivered.mono {ran ran' : List Execution} {x : ℕ} {v : Value}
    (h : Delivered site w evs ran t x v) (hevs : evs ⊆ evs') (hran : ran ⊆ ran') :
    Delivered site w evs' ran' t x v := by
  rcases h with ⟨values, hin, hv⟩ | ⟨e, he, ht, hv⟩
  · exact .inl ⟨values, hevs hin, hv⟩
  · exact .inr ⟨e, hran he, ht, hv⟩

theorem Entry.mono {queue queue' : List (Option ℕ)} {before : List Execution} {x : Execution}
    (h : Entry site w evs queue before x) (hevs : evs ⊆ evs')
    (hqueue : ∀ (i u : ℕ), queue[i]? = some (some u) → queue'[i]? = some (some u)) :
    Entry site w evs' queue' before x where
  piece := by
    obtain ⟨c0, c, hc0, hstock, hrest⟩ := h.piece
    exact ⟨c0, c, hc0, hstock.mono fun _ _ hv => hv.mono hevs (List.Subset.refl _), hrest⟩
  handled := h.handled
  few := by
    obtain ⟨j, hj, f, hfew, hended⟩ := h.few
    refine ⟨j, hqueue j _ hj, f, hfew, fun i hi hfi => ?_⟩
    obtain ⟨u, hu, hend⟩ := hended i hi hfi
    exact ⟨u, hqueue i u hu, hend⟩

theorem Stocks.init (site : Site DB) (w : Workload) (db : DB) : Stocks site w [] { db := db } where
  records t d h := by cases h
  own := forall_mem_nil _
  entries p x h := by rw [getElem?_nil] at h; cases h

theorem Stocks.more (h : Stocks site w evs st) (hevs : evs ⊆ evs') : Stocks site w evs' st where
  records t d hd := (h.records t d hd).mono fun _ _ hv => hv.mono hevs (List.Subset.refl _)
  own := h.own
  entries p x hx := (h.entries p x hx).mono hevs fun _ _ hu => hu

theorem own_onward (hmade : w.Made site) (hl : Logged site st) (h : Stocks site w evs st)
    (hon : Onward st st') {e : Execution} (he : e ∈ st.ran) {d' : TxSlog}
    (hd' : st'.dtxns.find e.txn = some d') :
    d'.Has (share site.parId (w.pieces site e.txn) e.output) := by
  obtain ⟨j, d, c, hat, -⟩ := hl.queued e he
  obtain ⟨d'', hd'', had⟩ := hon.records _ d hat.2
  obtain rfl : d'' = d' := some.inj (hd''.symm.trans hd')
  exact (h.own e he d hat.2).advanced ((h.records _ d hat.2).declared hmade) had

theorem Stocks.kept (hmade : w.Made site) (hl : Logged site st) (h : Stocks site w evs st)
    (hon : Onward st st') (hran : st'.ran = st.ran) (hrecords : ∀ u e, st'.dtxns.find u = some e →
      Stock site w (Delivered site w evs st.ran u) u e) : Stocks site w evs st' where
  records := by rw [hran]; exact hrecords
  own e he d' hd' := own_onward hmade hl h hon (hran ▸ he) hd'
  entries p x hx := by
    rw [hran] at hx ⊢
    exact (h.entries p x hx).mono (List.Subset.refl _) hon.queue

theorem Stocks.set (hmade : w.Made site) (hl : Logged site st) (h : Stocks site w evs st)
    (hon : Onward st st') (hran : st'.ran = st.ran) (hset : st'.dtxns = st.dtxns.set t d')
    (hd' : Stock site w (Delivered site w evs st.ran t) t d') : Stocks site w evs st' := by
  refine h.kept hmade hl hon hran fun u e he => ?_
  rw [hset, find_set] at he
  split at he
  · next hu => exact hu ▸ some.inj he ▸ hd'
  · exact h.records u e he

theorem dispatchExecute_dreqs {site : Site DB} {c : SimpleCommand} {dreqs : List ℕ} {db : DB} {y : ℕ}
    (h : y ∈ (site.dispatchExecute c dreqs db).2.1) : y ∈ dreqs ∨ y = c.innId := by
  rw [Site.dispatchExecute] at h
  split at h
  · exact .inl h
  · dsimp only at h
    split at h
    · exact .inl h
    · exact (mem_append.mp h).imp_right mem_singleton.mp

/-- The record after one of its pieces was executed. -/
theorem Stock.execute {D D' : ℕ → Value → Prop} {k : ℕ} {c : SimpleCommand} {pass : Pass DB}
    (hmade : w.Made site) (h : Stock site w D t pass.dtxn) (hopen : pass.dtxn.executed = false)
    (hc : pass.dtxn.pieces[k]? = some c) (hD : ∀ x v, D x v → D' x v)
    (hout : ∀ p ∈ share site.parId (w.pieces site t)
      (site.dispatchExecute c pass.dtxn.dreqs pass.db).1, D' p.1 p.2) :
    Stock site w D' t (pass.execute site t k c).dtxn := by
  have hpieces := execute_pieces site t k c pass
  rw [h.share_pieces] at hpieces
  generalize share site.parId (w.pieces site t)
    (site.dispatchExecute c pass.dtxn.dreqs pass.db).1 = o at hpieces hout
  have hmarked : ∀ (i : ℕ) (c1 : SimpleCommand), pass.dtxn.pieces[i]? = some c1 →
      (c1.localExecuted = true ∨ i = k) → ∃ c' ∈ (pass.execute site t k c).dtxn.pieces,
        c'.innId = c1.innId ∧ c'.localExecuted = true := by
    intro i c1 hc1 hx
    refine ⟨(if k = i then c1.mark else c1).offers o, ?_, ?_, ?_⟩
    · refine mem_of_getElem? (i := i) ?_
      rw [hpieces, getElem_filedAt, hc1, map_some]
    · rw [innId_offers]
      split <;> rfl
    · rw [localExecuted_offers]
      split
      · rfl
      · next hki => exact hx.resolve_right fun heq => hki heq.symm
  refine ⟨h.nLocal, ?_, fun i c' hc' => ?_, fun y hy => ?_, fun hx => ?_⟩
  · rw [hpieces, length_filedAt]
    exact h.length
  · rw [hpieces, getElem_filedAt] at hc'
    obtain ⟨c1, hc1, rfl⟩ := map_eq_some_iff.mp hc'
    obtain ⟨c0, hc0, hstock⟩ := h.pieces i c1 hc1
    have hdecl := hmade.declared t c0 (mem_of_getElem? hc0)
    refine ⟨c0, hc0, Stocked.offers ?_ hdecl hout⟩
    split
    · exact (hstock.mono hD).mark
    · exact hstock.mono hD
  · rcases dispatchExecute_dreqs hy with hold | rfl
    · obtain ⟨c1, hc1, rfl, hx⟩ := h.dreqs y hold
      obtain ⟨i, hi⟩ := mem_iff_getElem?.mp hc1
      exact hmarked i c1 hi (.inl hx)
    · exact hmarked k c hc (.inr rfl)
  · exact absurd (hopen.symm.trans hx) Bool.false_ne_true

theorem has_execute {D : ℕ → Value → Prop} {k : ℕ} {c : SimpleCommand} {pass : Pass DB}
    (hmade : w.Made site) (h : Stock site w D t pass.dtxn) : (pass.execute site t k c).dtxn.Has
      (share site.parId (w.pieces site t) (site.dispatchExecute c pass.dtxn.dreqs pass.db).1) := by
  intro c' hc' p hp
  rw [execute_pieces, h.share_pieces] at hc'
  obtain ⟨i, hi⟩ := mem_iff_getElem?.mp hc'
  rw [getElem_filedAt] at hi
  obtain ⟨c1, hc1, rfl⟩ := map_eq_some_iff.mp hi
  have hdecl := h.declared hmade c1 (mem_of_getElem? hc1)
  refine offers_not_missing (v := p.2) ?_ hp
  split
  · exact hdecl
  · exact hdecl

theorem Stocks.execute {j k : ℕ} {c : SimpleCommand} (hmade : w.Made site) (hs : Sound st)
    (hl : Logged site st) (h : Stocks site w evs st) (hat : st.Holds j t d)
    (hopen : d.executed = false) (hc : d.pieces[k]? = some c) (hrun : c.runnable = true)
    (hmax : st.unfinished j ≤ site.maxPendingTxns) :
    Stocks site w evs (st.executePiece site t k d c) := by
  have hon : Onward st (st.executePiece site t k d c) := onward_executePiece hat.2
  have hstock := h.records t d hat.2
  let x : Execution := ⟨t, k, c.innId, c.input, (site.dispatchExecute c d.dreqs st.db).1,
    decide (c.innId ∉ d.dreqs)⟩
  have hran : (st.executePiece site t k d c).ran = st.ran ++ [x] := rfl
  have hmore : ∀ u y v, Delivered site w evs st.ran u y v →
      Delivered site w evs (st.ran ++ [x]) u y v := fun u y v hv =>
    hv.mono (List.Subset.refl _) (subset_append_left _ _)
  have hnew : Stock site w (Delivered site w evs (st.ran ++ [x]) t) t
      (Pass.execute site t k c { dtxn := d, db := st.db, ran := st.ran }).dtxn :=
    Stock.execute hmade hstock hopen hc (hmore t)
      fun p hp => .inr ⟨x, mem_append_right _ mem_cons_self, rfl, hp⟩
  refine ⟨fun u e he => ?_, fun e he d' hd' => ?_, fun p y hp => ?_⟩
  · rw [hran]
    rw [Sched.executePiece, find_withPass] at he
    split at he
    · next hu => exact hu ▸ some.inj he ▸ hnew
    · exact (h.records u e he).mono (hmore u)
  · rw [hran] at he
    rcases mem_append.mp he with he | he
    · exact own_onward hmade hl h hon he hd'
    · rw [mem_singleton.mp he] at hd' ⊢
      rw [Sched.executePiece, find_withPass, if_pos rfl] at hd'
      rw [← some.inj hd']
      exact has_execute hmade hstock
  · rw [hran] at hp ⊢
    rcases getElem_concat_cases hp with hp | ⟨rfl, rfl⟩
    · have hlt := (List.getElem?_eq_some_iff.mp hp).1
      rw [take_append_of_le_length hlt.le]
      exact (h.entries p y hp).mono (List.Subset.refl _) hon.queue
    · -- the execution just made
      rw [take_left]
      obtain ⟨c0, hc0, hstocked⟩ := hstock.pieces k c hc
      refine ⟨⟨c0, c, hc0, hstocked, (Bool.and_eq_true_iff.mp hrun).1, rfl⟩, ?_, j, hat.1, st.done,
        hmax, fun i hi hdone => ?_⟩
      · exact decide_eq_true (hstock.not_dispatched hmade hc (runnable_unexecuted hrun))
      · obtain ⟨u, e, hue, hx⟩ := done_iff.mp hdone
        have hstocke := h.records u e hue.2
        refine ⟨u, hue.1, ?_, fun i' hi' => ?_⟩
        · rw [← hstocke.nLocal, hstocke.ended hx, hstocke.length]
        · rw [← hstocke.length] at hi'
          have hget := getElem?_eq_getElem hi'
          exact (hl.marked u e i' _ hue.2 hget).mp
            ((hs.counted u e hue.2).complete hx _ (mem_of_getElem? hget))

theorem Stocks.move (hmade : w.Made site) (hs : Sound st) (hl : Logged site st)
    (h : Stocks site w evs st) (hm : Move site (w.supply site evs) st st') :
    Stocks site w evs st' := by
  have hon := hm.onward
  cases hm with
  | execute hat hopen hc hrun _ hmax => exact h.execute hmade hs hl hat hopen hc hrun hmax
  | finish hat _ hall =>
    exact h.set hmade hl hon rfl rfl ((h.records _ _ hat.2).finish (hs.counted _ _ hat.2) hall)
  | merge hd hvalues _ =>
    refine h.set hmade hl hon rfl rfl ((h.records _ _ hd).merge hmade fun p hp => ?_)
    rcases hvalues with rfl | hin
    · cases hp
    · exact .inl ⟨_, hin, hp⟩
  | enter _ hnew hrecord => exact h.set hmade hl hon rfl rfl (stock_new _ hnew hrecord)
  | _ => exact h.kept hmade hl hon rfl h.records

end

end Fiss.Slog
