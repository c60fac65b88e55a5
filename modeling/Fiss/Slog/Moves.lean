import Fiss.Slog.Sched
import Mathlib.Logic.Relation

/-! What a site may do, one thing at a time: a piece is executed only at its place in the queue, with
    its inputs there, no earlier transaction having an unexecuted piece in conflict with it, and not
    too many earlier transactions unfinished. The handlers of the code do nothing but such moves, so
    that what a move keeps holds in every run. -/

namespace Fiss.Slog
open Fiss.Rcc List Prod SimpleCommand
open Relation (ReflTransGen)

section Moves

variable {DB : Type} (site : Site DB) (st : Sched DB)

/-- Slot `j` holds transaction `t`, with record `d`. -/
def Sched.Holds (j t : ℕ) (d : TxSlog) : Prop :=
  st.txnQueue[j]? = some (some t) ∧ st.dtxns.find t = some d

/-- The transaction in slot `i` is executed. -/
def Sched.done (i : ℕ) : Bool :=
  match st.txnQueue[i]? with
  | some (some t) => (st.dtxns.find t).any TxSlog.executed
  | _ => false

/-- How many transactions before slot `j` are not executed. -/
def Sched.unfinished (j : ℕ) : ℕ := (range j).countP fun i => !st.done i

/-- The slots before `j` are filled, and the unexecuted pieces there have an `inn_id` of `P`. -/
def Sched.Filled (j : ℕ) (P : ℕ → Prop) : Prop :=
  ∀ i < j, ∃ t d, st.Holds i t d ∧ ∀ c ∈ d.pieces, c.localExecuted = false → P c.innId

/-- The slots before `j` are filled, and no unexecuted piece there conflicts with `x`. -/
def Sched.Unhindered (j x : ℕ) : Prop :=
  st.Filled j fun y => site.checkPieceConflict y x = false

/-- The state with what a pass over transaction `t` has come to. -/
def Sched.withPass (t : ℕ) (pass : Pass DB) : Sched DB :=
  { st with db := pass.db, dtxns := st.dtxns.set t pass.dtxn, ran := pass.ran }

/-- Piece `k` of `t` is executed. -/
def Sched.executePiece (t k : ℕ) (d : TxSlog) (c : SimpleCommand) : Sched DB :=
  st.withPass t (Pass.execute site t k c { dtxn := d, db := st.db, ran := st.ran })

/-- A record nothing was done with yet. -/
structure TxSlog.New (d : TxSlog) : Prop where
  pieces : ∀ c ∈ d.pieces, c.localExecuted = false
  nLocal : d.nLocalPieces = d.pieces.length ∨ d.pieces = []
  nExecuted : d.nExecutedPieces = 0
  dreqs : d.dreqs = []
  distOutput : d.distOutput = {}
  executed : d.executed = false

/-- The record with the output of a partition noted. -/
def TxSlog.receive (par : ℕ) (d : TxSlog) : TxSlog :=
  { d with parOutputReceived := d.parOutputReceived.set par true }

/-- The output of a partition is noted, and the coordinating site may reply. -/
def Sched.receive (t par : ℕ) (d : TxSlog) : Sched DB :=
  { st with
    dtxns := st.dtxns.set t (d.receive par)
    sent := st.sent ++ (d.receive par).reply site t }

/-- Where the values and the records of transactions may come from. -/
structure Supply where
  values : ℕ → Dict ℕ Value → Prop
  records : ℕ → TxSlog → Prop
  nothing : ∀ t, values t {}

def Supply.any : Supply := ⟨fun _ _ => True, fun _ _ => True, fun _ => trivial⟩

/-- `l'` is `l`, or `l` without one `x`. -/
def Without {α : Type} (l : List α) (x : α) (l' : List α) : Prop :=
  l' = l ∨ ∃ kept rest, l = kept ++ x :: rest ∧ l' = kept ++ rest

inductive Move (site : Site DB) (src : Supply) : Sched DB → Sched DB → Prop
  | execute {st : Sched DB} {j t k : ℕ} {d : TxSlog} {c : SimpleCommand} (hat : st.Holds j t d)
      (hopen : d.executed = false) (hc : d.pieces[k]? = some c) (hrun : c.runnable = true)
      (hfree : st.Unhindered site j c.innId) (hmax : st.unfinished j ≤ site.maxPendingTxns) :
      Move site src st (st.executePiece site t k d c)
  | finish {st : Sched DB} {j t : ℕ} {d : TxSlog} (hat : st.Holds j t d)
      (hopen : d.executed = false) (hall : d.finished = true) :
      Move site src st { st with
        dtxns := st.dtxns.set t (d.finish site)
        sent := st.sent ++ (d.finish site).reply site t }
  | skip {st : Sched DB} {t : ℕ} {d : TxSlog} (hat : st.Holds st.nextExecuteIndex t d)
      (hdone : d.executed = true) :
      Move site src st { st with nextExecuteIndex := st.nextExecuteIndex + 1 }
  | send {st : Sched DB} (out : List Out)
      (hout : ∀ o ∈ out, ∃ par t values, o = .depValues par t values) :
      Move site src st { st with sent := st.sent ++ out }
  /-- values are handed to the pieces, as they come or from the pending ones -/
  | merge {st : Sched DB} {t : ℕ} {d : TxSlog} {values : Dict ℕ Value}
      {pending : List (ℕ × Dict ℕ Value)} (hd : st.dtxns.find t = some d)
      (hvalues : src.values t values) (hpending : Without st.pendingDepValues (t, values) pending) :
      Move site src st { st with
        dtxns := st.dtxns.set t (d.merge values)
        pendingDepValues := pending }
  | defer {st : Sched DB} {t : ℕ} {values : Dict ℕ Value} (hno : st.dtxns.find t = none)
      (hvalues : src.values t values) :
      Move site src st { st with pendingDepValues := st.pendingDepValues ++ [(t, values)] }
  | notify {st : Sched DB} (next : ℕ) (notified : List ℕ) :
      Move site src st { st with nextNotifyIndex := next, notified := notified }
  | enter {st : Sched DB} {t : ℕ} {d : TxSlog} (hno : st.dtxns.find t = none) (hnew : d.New)
      (hrecord : src.records t d) :
      Move site src st { st with dtxns := st.dtxns.set t d }
  | extend {st : Sched DB} (n : ℕ) :
      Move site src st { st with txnQueue := st.txnQueue ++ replicate n none }
  | enqueue {st : Sched DB} {k t : ℕ} {d : TxSlog} (hslot : st.txnQueue[k]? = some none)
      (hd : st.dtxns.find t = some d) (hnew : some t ∉ st.txnQueue) :
      Move site src st { st with txnQueue := st.txnQueue.set k (some t) }

/-- Any number of moves. -/
abbrev Moves (site : Site DB) (src : Supply) : Sched DB → Sched DB → Prop :=
  ReflTransGen (Move site src)

end Moves

/-! ### What a move does to the records -/

variable {c : SimpleCommand}

section Records

variable {DB : Type} {site : Site DB} {src : Supply} {st st' : Sched DB} {j t k : ℕ} {d d' : TxSlog}

theorem find_withPass (st : Sched DB) (t : ℕ) (pass : Pass DB) (t' : ℕ) :
    (st.withPass t pass).dtxns.find t' = if t' = t then some pass.dtxn else st.dtxns.find t' :=
  Dict.find_set st.dtxns t t' pass.dtxn

theorem Advanced.unexecuted (h : Advanced d d') {c' : SimpleCommand} (hc' : c' ∈ d'.pieces)
    (hno : c'.localExecuted = false) :
    ∃ c ∈ d.pieces, c.innId = c'.innId ∧ c.localExecuted = false := by
  obtain ⟨i, hi⟩ := mem_iff_getElem?.mp hc'
  obtain ⟨c, hc, hfed⟩ := h.pieces i c' hi
  refine ⟨c, mem_of_getElem? hc, hfed.innId.symm, eq_false_of_ne_true fun hx => ?_⟩
  rw [hfed.executed hx] at hno
  cases hno

/-- The slots filled stay so, and the records get on. -/
structure Onward (st st' : Sched DB) : Prop where
  queue : ∀ (i u : ℕ), st.txnQueue[i]? = some (some u) → st'.txnQueue[i]? = some (some u)
  records : ∀ u d, st.dtxns.find u = some d → ∃ d', st'.dtxns.find u = some d' ∧ Advanced d d'

theorem onward_of_eq (hqueue : st'.txnQueue = st.txnQueue) (hdtxns : st'.dtxns = st.dtxns) :
    Onward st st' :=
  ⟨fun _ _ h => hqueue ▸ h, fun _ d h => ⟨d, hdtxns ▸ h, Advanced.refl d⟩⟩

theorem Onward.refl (st : Sched DB) : Onward st st := onward_of_eq rfl rfl

theorem Onward.trans {st'' : Sched DB} (h : Onward st st') (h' : Onward st' st'') :
    Onward st st'' where
  queue i u hi := h'.queue i u (h.queue i u hi)
  records u d hd := by
    obtain ⟨d', hd', had⟩ := h.records u d hd
    obtain ⟨d'', hd'', had'⟩ := h'.records u d' hd'
    exact ⟨d'', hd'', had.trans had'⟩

theorem onward_set (hqueue : st'.txnQueue = st.txnQueue) (hd : st.dtxns.find t = some d)
    (hset : st'.dtxns = st.dtxns.set t d') (had : Advanced d d') : Onward st st' := by
  refine ⟨fun i u hi => hqueue ▸ hi, fun u e he => ?_⟩
  rw [hset, Dict.find_set]
  rcases eq_or_ne u t with rfl | hne
  · rw [if_pos rfl]
    exact ⟨d', rfl, Option.some.inj (hd.symm.trans he) ▸ had⟩
  · rw [if_neg hne]
    exact ⟨e, he, Advanced.refl e⟩

theorem onward_executePiece (hd : st.dtxns.find t = some d) :
    Onward st (st.executePiece site t k d c) :=
  have had := advanced_execute site t k c { dtxn := d, db := st.db, ran := st.ran }
  onward_set rfl hd rfl had

theorem Move.onward (h : Move site src st st') : Onward st st' := by
  cases h with
  | execute hat => exact onward_executePiece hat.2
  | finish hat => exact onward_set rfl hat.2 rfl (advanced_finish site _)
  | skip | send => exact onward_of_eq rfl rfl
  | merge hd => exact onward_set rfl hd rfl (advanced_merge _ _)
  | defer | notify => exact onward_of_eq rfl rfl
  | enter hno =>
    refine ⟨fun _ _ h => h, fun u e he => ⟨e, ?_, Advanced.refl e⟩⟩
    rw [Dict.find_set_ne _ (fun heq => by rw [heq, hno] at he; cases he)]
    exact he
  | extend n =>
    refine ⟨fun i u hi => ?_, fun _ d h => ⟨d, h, Advanced.refl d⟩⟩
    rw [getElem?_append_left (List.getElem?_eq_some_iff.mp hi).1]
    exact hi
  | enqueue hslot =>
    refine ⟨fun i u hi => ?_, fun _ d h => ⟨d, h, Advanced.refl d⟩⟩
    rw [getElem?_set_ne (fun heq => by rw [heq, hi] at hslot; cases hslot)]
    exact hi

theorem onward_receive {par : ℕ} (hd : st.dtxns.find t = some d) :
    Onward st (st.receive site t par d) :=
  onward_set rfl hd rfl { Advanced.refl d with }

theorem Onward.unknown (h : Onward st st') (hno : st'.dtxns.find t = none) :
    st.dtxns.find t = none := by
  cases hd : st.dtxns.find t with
  | none => rfl
  | some d =>
    obtain ⟨d', hd', -⟩ := h.records t d hd
    cases hno.symm.trans hd'

theorem Onward.holds (h : Onward st st') (hat : st.Holds j t d) :
    ∃ d', st'.Holds j t d' ∧ Advanced d d' := by
  obtain ⟨d', hd', had⟩ := h.records t d hat.2
  exact ⟨d', ⟨h.queue j t hat.1, hd'⟩, had⟩

theorem done_iff : st.done j = true ↔ ∃ t d, st.Holds j t d ∧ d.executed = true := by
  rw [Sched.done]
  constructor
  · intro h
    split at h
    · next t ht =>
      cases hd : st.dtxns.find t with
      | none =>
        rw [hd] at h
        cases h
      | some d =>
        rw [hd] at h
        exact ⟨t, d, ⟨ht, hd⟩, h⟩
    · cases h
  · rintro ⟨t, d, ⟨ht, hd⟩, hx⟩
    rw [ht]
    simp only [hd, Option.any_some, hx]

theorem Onward.done (h : Onward st st') (hj : st.done j = true) : st'.done j = true := by
  obtain ⟨t, d, hat, hx⟩ := done_iff.mp hj
  obtain ⟨d', hat', had⟩ := h.holds hat
  exact done_iff.mpr ⟨t, d', hat', had.executed hx⟩

theorem Onward.unfinished (h : Onward st st') (j : ℕ) : st'.unfinished j ≤ st.unfinished j := by
  refine countP_mono_left fun i _ hi => ?_
  rw [Bool.not_eq_true'] at hi ⊢
  exact eq_false_of_ne_true fun hx => by rw [h.done hx] at hi; cases hi

end Records

/-! ### What every move keeps -/

section

variable {DB : Type} {site : Site DB} {src : Supply} {st st' : Sched DB} {t : ℕ} {d d' : TxSlog}

/-- The pieces counted as executed are those marked so, and a record counts all its pieces. -/
structure TxSlog.Counted (d : TxSlog) : Prop where
  nExecuted : d.nExecutedPieces = d.pieces.countP fun c => c.localExecuted
  nLocal : d.nLocalPieces = d.pieces.length ∨ d.pieces = []
  complete : d.executed = true → ∀ c ∈ d.pieces, c.localExecuted = true

theorem TxSlog.Counted.all (h : d.Counted) (hfin : d.finished = true) :
    ∀ c ∈ d.pieces, c.localExecuted = true := by
  rcases h.nLocal with hlocal | hnil
  · have heq : d.nLocalPieces = d.nExecutedPieces := of_decide_eq_true hfin
    rw [hlocal, h.nExecuted] at heq
    exact countP_eq_length.mp (Int.ofNat.inj heq).symm
  · rw [hnil]
    exact forall_mem_nil _

theorem TxSlog.New.counted (h : d.New) : d.Counted where
  nExecuted := by
    rw [h.nExecuted, countP_eq_zero.mpr fun c hc => by rw [h.pieces c hc]; exact Bool.false_ne_true]
  nLocal := h.nLocal
  complete hx := by rw [h.executed] at hx; cases hx

theorem counted_execute {k : ℕ} {pass : Pass DB} (h : pass.dtxn.Counted)
    (hopen : pass.dtxn.executed = false) (hc : pass.dtxn.pieces[k]? = some c)
    (hno : c.localExecuted = false) : (pass.execute site t k c).dtxn.Counted := by
  obtain ⟨o, ho⟩ := execute_filed site t k c pass
  refine ⟨?_, ?_, fun hx => ?_⟩
  · rw [ho, countP_filedAt hc hno, ← h.nExecuted]
    rfl
  · rw [ho, length_filedAt]
    exact h.nLocal.imp_right fun hnil => by rw [hnil] at hc; cases hc
  · exact absurd (hopen.symm.trans hx) Bool.false_ne_true

theorem counted_merge (values : Dict ℕ Value) (h : d.Counted) : (d.merge values).Counted := by
  have hsame : ∀ c : SimpleCommand, (c.offers values.entries).localExecuted = c.localExecuted :=
    fun c => localExecuted_offers c _
  refine ⟨?_, ?_, fun hx c' hc' => ?_⟩
  · rw [merge_pieces, countP_map]
    simp only [Function.comp_def, hsame]
    exact h.nExecuted
  · rw [merge_pieces, length_map, map_eq_nil_iff]
    exact h.nLocal
  · rw [merge_pieces] at hc'
    obtain ⟨c, hc, rfl⟩ := mem_map.mp hc'
    rw [hsame]
    exact h.complete hx c hc

/-- The queue holds transactions with records, each counts its pieces, and the transactions before
    the cursor are executed. -/
structure Sound (st : Sched DB) : Prop where
  known : ∀ (j t : ℕ), st.txnQueue[j]? = some (some t) → ∃ d, st.dtxns.find t = some d
  counted : ∀ t d, st.dtxns.find t = some d → d.Counted
  below : ∀ i < st.nextExecuteIndex, st.done i = true

theorem Sound.init (db : DB) : Sound ({ db := db } : Sched DB) where
  known j t h := by rw [getElem?_nil] at h; cases h
  counted t d h := by cases h
  below i hi := absurd hi (Nat.not_lt_zero i)

theorem Sound.set (h : Sound st) (hon : Onward st st') (hqueue : st'.txnQueue = st.txnQueue)
    (hnext : st'.nextExecuteIndex = st.nextExecuteIndex) (hset : st'.dtxns = st.dtxns.set t d)
    (hd : d.Counted) : Sound st' where
  known j u hj := by
    obtain ⟨e, he⟩ := h.known j u (hqueue ▸ hj)
    obtain ⟨e', he', -⟩ := hon.records u e he
    exact ⟨e', he'⟩
  counted u e he := by
    rw [hset, Dict.find_set] at he
    split at he
    · exact Option.some.inj he ▸ hd
    · exact h.counted u e he
  below i hi := hon.done (h.below i (hnext ▸ hi))

theorem runnable_unexecuted (h : c.runnable = true) : c.localExecuted = false := by
  rw [runnable, Bool.and_eq_true, Bool.not_eq_true'] at h
  exact h.2

theorem Sound.move (h : Sound st) (hm : Move site src st st') : Sound st' := by
  have hon := hm.onward
  have hbelow : ∀ i < st.nextExecuteIndex, st'.done i = true := fun i hi => hon.done (h.below i hi)
  cases hm with
  | @execute j t k d c hat hopen hc hrun _ _ =>
    have hcounted : (Pass.execute site t k c
        { dtxn := d, db := st.db, ran := st.ran }).dtxn.Counted :=
      counted_execute (h.counted t d hat.2) hopen hc (runnable_unexecuted hrun)
    exact h.set hon rfl rfl rfl hcounted
  | finish hat hopen hall =>
    have hcounted := h.counted _ _ hat.2
    exact h.set hon rfl rfl rfl ⟨hcounted.nExecuted, hcounted.nLocal, fun _ => hcounted.all hall⟩
  | skip hat hdone =>
    refine ⟨h.known, h.counted, fun i hi => ?_⟩
    rcases Nat.lt_succ_iff_lt_or_eq.mp hi with hi | rfl
    · exact hbelow i hi
    · exact hon.done (done_iff.mpr ⟨_, _, hat, hdone⟩)
  | send => exact ⟨h.known, h.counted, hbelow⟩
  | merge hd => exact h.set hon rfl rfl rfl (counted_merge _ (h.counted _ _ hd))
  | defer | notify => exact ⟨h.known, h.counted, hbelow⟩
  | enter _ hnew => exact h.set hon rfl rfl rfl hnew.counted
  | extend n =>
    exact ⟨fun j u hj => h.known j u (slot_extend hj), h.counted, hbelow⟩
  | enqueue hslot hd hnew =>
    refine ⟨fun j u hj => ?_, h.counted, hbelow⟩
    rcases slot_set hj with ⟨-, rfl⟩ | hj
    · exact ⟨_, hd⟩
    · exact h.known j u hj

theorem Sound.moves (h : Sound st) (hm : Moves site src st st') : Sound st' := by
  induction hm with
  | refl => exact h
  | tail _ hstep ih => exact ih.move hstep

theorem Sound.receive {par : ℕ} (h : Sound st) (hd : st.dtxns.find t = some d) :
    Sound (st.receive site t par d) := by
  have hcounted := h.counted t d hd
  exact h.set (onward_receive hd) rfl rfl rfl
    ⟨hcounted.nExecuted, hcounted.nLocal, hcounted.complete⟩

theorem moves_onward (hm : Moves site src st st') : Onward st st' := by
  induction hm with
  | refl => exact Onward.refl st
  | tail _ hstep ih => exact ih.trans hstep.onward

end

/-! ### The loop over the queue -/

section

variable {DB : Type} {site : Site DB} {src : Supply} {st : Sched DB} {i t : ℕ} {d : TxSlog} {l : Loop DB}
  {pending : OrdSet ℕ}

/-- The loop has come to slot `i`: what is unexecuted before it pends, and is counted. -/
structure Visited (i : ℕ) (l : Loop DB) : Prop where
  slots : l.sched.Filled i (· ∈ l.pendingPieces)
  found : l.sched.unfinished i ≤ l.foundPending
  cursor : l.foundPending = 0 → l.sched.nextExecuteIndex = i

theorem Visited.start (h : Sound st) : Visited st.nextExecuteIndex { sched := st } where
  slots i' hi' := by
    obtain ⟨t, d, hat, hx⟩ := done_iff.mp (h.below i' hi')
    refine ⟨t, d, hat, fun c hc hno => ?_⟩
    rw [(h.counted t d hat.2).complete hx c hc] at hno
    cases hno
  found := by
    rw [Sched.unfinished, countP_eq_zero.mpr fun i' hi' => by
      rw [h.below i' (mem_range.mp hi')]; exact Bool.false_ne_true]
  cursor _ := rfl

theorem Visited.cursor_succ (h : Visited i l) (hzero : l.foundPending = 0) :
    l.sched.nextExecuteIndex + (if l.foundPending = 0 then 1 else 0) = i + 1 := by
  rw [if_pos hzero, h.cursor hzero]

theorem visited_slots (h : Visited i l) (hon : Onward l.sched st)
    (hpending : ∀ x ∈ l.pendingPieces, x ∈ pending) : st.Filled i (· ∈ pending) := by
  intro i' hi'
  obtain ⟨t, d, hat, hin⟩ := h.slots i' hi'
  obtain ⟨d', hat', had⟩ := hon.holds hat
  refine ⟨t, d', hat', fun c' hc' hno => ?_⟩
  obtain ⟨c, hc, hid, hno⟩ := had.unexecuted hc' hno
  exact hpending _ (hid ▸ hin c hc hno)

theorem unfinished_succ (st : Sched DB) (i : ℕ) :
    st.unfinished (i + 1) = st.unfinished i + if st.done i then 0 else 1 := by
  rw [Sched.unfinished, range_succ, countP_append, countP_singleton]
  cases st.done i <;> rfl

theorem mem_addPending {x : ℕ} : x ∈ d.addPending pending ↔
    x ∈ pending ∨ ∃ c ∈ d.pieces, c.localExecuted = false ∧ c.innId = x := by
  rw [TxSlog.addPending, ← foldl_map, OrdSet.mem_foldl_insert, mem_map]
  simp only [mem_filter, Bool.not_eq_true', and_assoc]

theorem canExeWoConflict_iff {x : ℕ} : site.canExeWoConflict x pending = true ↔
      ∀ p ∈ pending, site.checkPieceConflict p x = false := by
  rw [Site.canExeWoConflict, all_eq_true]
  simp only [Bool.not_eq_true', OrdSet.mem_elems]

theorem Visited.unhindered (h : Visited i l) (hon : Onward l.sched st) {x : ℕ}
    (hfree : site.canExeWoConflict x l.pendingPieces = true) : st.Unhindered site i x := by
  intro i' hi'
  obtain ⟨t, d, hat, hin⟩ := visited_slots h hon (fun _ hx => hx) i' hi'
  exact ⟨t, d, hat, fun c hc hno => canExeWoConflict_iff.mp hfree _ (hin c hc hno)⟩

/-- A pass over a transaction, as moves from the state it started in. -/
structure Passed (site : Site DB) (src : Supply) (st : Sched DB) (t : ℕ) (d : TxSlog)
    (pass : Pass DB) : Prop where
  moves : Moves site src st (st.withPass t pass)
  advanced : Advanced d pass.dtxn
  same : pass.dtxn.executed = false

theorem passed_start (hd : st.dtxns.find t = some d) (hopen : d.executed = false) :
    Passed site src st t d { dtxn := d, db := st.db, ran := st.ran } :=
  -- merging nothing puts the record back
  ⟨.single (.merge hd (src.nothing t) (.inl rfl)), Advanced.refl d, hopen⟩

theorem Passed.execute {k : ℕ} {pass : Pass DB}
    (h : Passed site src l.sched t d pass) (hvis : Visited i l)
    (hmax : l.foundPending ≤ site.maxPendingTxns) (hslot : l.sched.txnQueue[i]? = some (some t))
    (hc : pass.dtxn.pieces[k]? = some c) (hfree : site.free l.pendingPieces c = true) :
    Passed site src l.sched t d (pass.execute site t k c) := by
  have hon := moves_onward h.moves
  obtain ⟨hrun, hconf⟩ := Bool.and_eq_true_iff.mp hfree
  have hat : (l.sched.withPass t pass).Holds i t pass.dtxn := ⟨hslot, Dict.find_set_self _ _ _⟩
  have hmove : Move site src _ ((l.sched.withPass t pass).executePiece site t k pass.dtxn c) :=
    Move.execute hat h.same hc hrun (hvis.unhindered hon hconf)
      ((hon.unfinished i).trans (hvis.found.trans hmax))
  have heq : (l.sched.withPass t pass).executePiece site t k pass.dtxn c =
      l.sched.withPass t (pass.execute site t k c) := by
    rw [Sched.executePiece, Sched.withPass, Sched.withPass, Sched.withPass]
    simp only [Dict.set_set]
    rfl
  rw [heq] at hmove
  exact ⟨h.moves.tail hmove, h.advanced.trans (advanced_execute site t k c pass), h.same⟩

theorem passed_recursive (hvis : Visited i l) (hmax : l.foundPending ≤ site.maxPendingTxns)
    (hat : l.sched.Holds i t d) (hopen : d.executed = false) : Passed site src l.sched t d
      (d.recursiveExecuteReadyPieces site l.pendingPieces t l.sched.db l.sched.ran) := by
  refine sweeps_inv (I := Passed site src l.sched t d)
    (fun pass b h => ⟨h.moves, h.advanced, h.same⟩)
    (fun pass k c h hc hfree => h.execute hvis hmax hat.1 hc hfree) (passed_start hat.2 hopen)

theorem messages_depValues (site : Site DB) (t : ℕ) (pass : Pass DB) :
    ∀ o ∈ pass.messages site t, ∃ par u values, o = .depValues par u values := by
  intro o ho
  obtain ⟨e, -, rfl⟩ := mem_map.mp ho
  exact ⟨_, _, _, rfl⟩

theorem visited_succ {d' : TxSlog} (h : Visited i l) (hon : Onward l.sched st)
    (hpending : ∀ x ∈ l.pendingPieces, x ∈ pending) (hat : st.Holds i t d')
    (hin : ∀ c ∈ d'.pieces, c.localExecuted = false → c.innId ∈ pending) :
    st.Filled (i + 1) (· ∈ pending) := by
  intro i' hi'
  rcases Nat.lt_succ_iff_lt_or_eq.mp hi' with hi' | rfl
  · exact visited_slots h hon hpending i' hi'
  · exact ⟨t, d', hat, hin⟩

theorem Visited.skip (hs : Sound l.sched) (h : Visited i l) (hat : l.sched.Holds i t d)
    (hx : d.executed = true) : Moves site src l.sched l.skip.sched ∧ Visited (i + 1) l.skip := by
  have hmoves : Moves site src l.sched l.skip.sched := by
    rw [Loop.skip]
    split
    · next hzero =>
      rw [← h.cursor hzero] at hat
      exact .single (.skip hat hx)
    · exact .refl
  have hon := moves_onward hmoves
  refine ⟨hmoves, visited_succ h hon (fun _ hp => hp) hat fun c hc hno => ?_, ?_, h.cursor_succ⟩
  · rw [(hs.counted t d hat.2).complete hx c hc] at hno
    cases hno
  · rw [unfinished_succ, if_pos (hon.done (done_iff.mpr ⟨t, d, hat, hx⟩))]
    exact (hon.unfinished i).trans h.found

theorem Visited.tryExecute (h : Visited i l) (hmax : l.foundPending ≤ site.maxPendingTxns)
    (hat : l.sched.Holds i t d) (hopen : d.executed = false) :
    Moves site src l.sched (l.tryExecute site t d).sched ∧
      Visited (i + 1) (l.tryExecute site t d) := by
  have hpassed : Passed site src l.sched t d _ := passed_recursive h hmax hat hopen
  rw [Loop.tryExecute]
  dsimp only
  generalize d.recursiveExecuteReadyPieces site l.pendingPieces t l.sched.db l.sched.ran = pass
    at hpassed ⊢
  obtain ⟨hmoves, -, hsame⟩ := hpassed
  have hatPass : (l.sched.withPass t pass).Holds i t pass.dtxn :=
    ⟨hat.1, Dict.find_set_self _ _ _⟩
  have hmore : ∀ x ∈ l.pendingPieces, x ∈ pass.dtxn.addPending l.pendingPieces :=
    fun x hx => mem_addPending.mpr (.inl hx)
  have hadded : ∀ c ∈ pass.dtxn.pieces, c.localExecuted = false →
      c.innId ∈ pass.dtxn.addPending l.pendingPieces :=
    fun c hc hno => mem_addPending.mpr (.inr ⟨c, hc, hno, rfl⟩)
  have hsend := messages_depValues site t pass
  split
  · next hfin =>
    have hfinish := hmoves.tail (Move.finish hatPass hsame hfin)
    simp only [Sched.withPass, Dict.set_set] at hfinish
    have hatFinish : ∀ {next : ℕ} {sent : List Out}, Sched.Holds { l.sched with
        db := pass.db
        dtxns := l.sched.dtxns.set t (pass.dtxn.finish site)
        nextExecuteIndex := next
        ran := pass.ran
        sent := sent } i t (pass.dtxn.finish site) := ⟨hat.1, Dict.find_set_self _ _ _⟩
    have hall : Moves site src l.sched { l.sched with
        db := pass.db
        dtxns := l.sched.dtxns.set t (pass.dtxn.finish site)
        nextExecuteIndex := l.sched.nextExecuteIndex + if l.foundPending = 0 then 1 else 0
        ran := pass.ran
        sent := l.sched.sent ++ (pass.dtxn.finish site).reply site t ++ pass.messages site t } := by
      split
      · next hzero =>
        have hcursor := h.cursor hzero
        have hskip := hfinish.tail (Move.skip (hcursor ▸ hatFinish) rfl)
        exact hskip.tail (Move.send _ hsend)
      · exact hfinish.tail (Move.send _ hsend)
    have hon := moves_onward hall
    refine ⟨hall, visited_succ h hon hmore hatFinish hadded, ?_, h.cursor_succ⟩
    rw [unfinished_succ, if_pos (done_iff.mpr ⟨t, _, hatFinish, rfl⟩)]
    exact (hon.unfinished i).trans h.found
  · have hall := hmoves.tail (Move.send _ hsend)
    have hon := moves_onward hall
    refine ⟨hall, visited_succ h hon hmore hatPass hadded, ?_, fun hzero => ?_⟩
    · rw [unfinished_succ]
      refine Nat.add_le_add ((hon.unfinished i).trans h.found) ?_
      split
      · exact Nat.zero_le 1
      · exact le_rfl
    · cases hzero

theorem slots_moves : ∀ {slots : List (Option ℕ)} {i : ℕ} {l : Loop DB},
    l.sched.txnQueue.drop i = slots → Sound l.sched → Visited i l →
    l.foundPending ≤ site.maxPendingTxns → Moves site src l.sched (Loop.slots site slots l).sched
  | [], _, _, _, _, _, _ => .refl
  | none :: _, _, _, _, _, _, _ => .refl
  | some t :: slots, i, l, hslots, hs, hvis, hmax => by
    have hslot : l.sched.txnQueue[i]? = some (some t) := by
      rw [← head?_drop, hslots]
      rfl
    obtain ⟨d, hd⟩ := hs.known i t hslot
    have hvisit : Moves site src l.sched (l.visit site t).sched ∧
        Visited (i + 1) (l.visit site t) := by
      rw [Loop.visit, hd]
      dsimp only
      split
      · next hx => exact hvis.skip hs ⟨hslot, hd⟩ hx
      · next hx => exact hvis.tryExecute hmax ⟨hslot, hd⟩ (eq_false_of_ne_true hx)
    obtain ⟨hmoves, hvis'⟩ := hvisit
    rw [Loop.slots]
    split
    · exact hmoves
    · next hle =>
      refine hmoves.trans (slots_moves ?_ (hs.moves hmoves) hvis' (not_lt.mp hle))
      rw [(visit_queue site t l).queue, ← tail_drop, hslots]
      rfl

theorem execTxnQueue_moves (hs : Sound st) : Moves site src st (st.execTxnQueue site) :=
  slots_moves (l := { sched := st }) rfl hs (Visited.start hs) (Nat.zero_le _)

end

/-! ### The other handlers -/

section

variable {DB : Type} {site : Site DB} {src : Supply} {st st' : Sched DB} {b : Batch}

theorem onSendDepValues_first (site : Site DB) {t : ℕ} {values : Dict ℕ Value} (hs : Sound st)
    (hvalues : src.values t values) : ∃ st1, Move site src st st1 ∧
      Moves site src st1 (st.onSendDepValues site t values) ∧ ((t, values) ∈ st1.pendingDepValues ∨
        ∃ d, st.dtxns.find t = some d ∧ st1.dtxns.find t = some (d.merge values)) := by
  rw [Sched.onSendDepValues]
  split
  · next hno =>
    exact ⟨_, Move.defer hno hvalues, ReflTransGen.refl,
      .inl (mem_append_right _ mem_cons_self)⟩
  · next d hd =>
    have hmerge : Move site src st { st with dtxns := st.dtxns.set t (d.merge values) } :=
      Move.merge hd hvalues (.inl rfl)
    refine ⟨_, hmerge, ?_, .inr ⟨d, hd, Dict.find_set_self _ _ _⟩⟩
    dsimp only
    split
    · exact execTxnQueue_moves (hs.move hmerge)
    · exact .refl

theorem onSendDepValues_moves {t : ℕ} {values : Dict ℕ Value} (hs : Sound st)
    (hvalues : src.values t values) : Moves site src st (st.onSendDepValues site t values) := by
  obtain ⟨st1, hfirst, hrest, -⟩ := onSendDepValues_first site hs hvalues
  exact hrest.head hfirst

theorem mergePending_pending : ∀ (l : List (ℕ × Dict ℕ Value)) (st : Sched DB)
    (pending : List (ℕ × Dict ℕ Value)),
    Sched.mergePending l { st with pendingDepValues := pending } = st.mergePending l
  | [], _, _ => rfl
  | (t, values) :: l, st, pending => by
    rw [Sched.mergePending, Sched.mergePending]
    dsimp only
    cases st.dtxns.find t with
    | none => simp only [mergePending_pending l st pending]
    | some d =>
      simp only [mergePending_pending l { st with dtxns := st.dtxns.set t (d.merge values) } pending]

theorem mergePending_moves : ∀ (l kept : List (ℕ × Dict ℕ Value)) (st : Sched DB),
    st.pendingDepValues = kept ++ l → (∀ e ∈ l, src.values e.1 e.2) →
      Moves site src st { (st.mergePending l).1 with
        pendingDepValues := kept ++ (st.mergePending l).1.pendingDepValues }
  | [], kept, st, hpending, _ => by
    have heq : { (st.mergePending []).1 with
        pendingDepValues := kept ++ (st.mergePending []).1.pendingDepValues } = st := by
      rw [Sched.mergePending, ← hpending]
    rw [heq]
  | (t, values) :: l, kept, st, hpending, hvalues => by
    have hrest : ∀ e ∈ l, src.values e.1 e.2 := fun e he => hvalues e (mem_cons_of_mem _ he)
    rw [Sched.mergePending]
    split
    · have hmoves := mergePending_moves l (kept ++ [(t, values)]) st
        (by rw [hpending, append_assoc]; rfl) hrest
      rw [append_assoc] at hmoves
      exact hmoves
    · next d hd =>
      have hmerge : Move site src st { st with
          dtxns := st.dtxns.set t (d.merge values)
          pendingDepValues := kept ++ l } :=
        Move.merge hd (hvalues _ mem_cons_self) (.inr ⟨kept, l, hpending, rfl⟩)
      have hmoves : Moves site src _ _ := mergePending_moves l kept
        { st with dtxns := st.dtxns.set t (d.merge values), pendingDepValues := kept ++ l } rfl hrest
      have hsame := mergePending_pending l { st with dtxns := st.dtxns.set t (d.merge values) }
        (kept ++ l)
      rw [hsame] at hmoves
      exact hmoves.head hmerge

theorem checkPendingDeps_moves (hs : Sound st)
    (hpending : ∀ e ∈ st.pendingDepValues, src.values e.1 e.2) :
    Moves site src st (st.checkPendingDeps site) := by
  have hmerge : Moves site src st (st.mergePending st.pendingDepValues).1 :=
    mergePending_moves st.pendingDepValues [] st rfl hpending
  rw [Sched.checkPendingDeps]
  split
  · exact hmerge.trans (execTxnQueue_moves (hs.moves hmerge))
  · exact hmerge

theorem notify_moves : Moves site src st (st.notify site) := by
  rw [Sched.notify]
  split
  · exact .single (.notify _ _)
  · exact .refl

theorem onSendTxnOutput_cases {t par : ℕ} (output : TxnOutput)
    (h : st.onSendTxnOutput site t par output = some st') : ∃ d, st.dtxns.find t = some d ∧
      ((d.parOutputReceived.find par = some true ∧ st' = st) ∨
        (d.parOutputReceived.find par = some false ∧ st' = st.receive site t par d)) := by
  obtain ⟨d, hd, h⟩ := Option.bind_eq_some_iff.mp h
  obtain ⟨got, hgot, rfl⟩ := Option.map_eq_some_iff.mp h
  refine ⟨d, hd, ?_⟩
  cases got with
  | true => exact .inl ⟨hgot, rfl⟩
  | false => exact .inr ⟨hgot, rfl⟩

/-- The id a transaction is submitted under. -/
def Site.txnId (site : Site DB) (cmds : Cmds) : Option ℕ :=
  (cmds.entries.head?.bind fun p => p.2.head?).map site.rootId

/-- Each transaction comes once: it is submitted under a new id, and a batch brings transactions that
    are not in the queue. -/
def Fresh (site : Site DB) (st : Sched DB) : SiteEvent → Prop
  | .submitTxn cmds => ∀ p ∈ cmds.entries.head?, ∀ c ∈ p.2.head?,
      st.dtxns.find (site.rootId c) = none
  | .sendBatch b => (b.cmds.map fst).Nodup ∧ ∀ p ∈ b.cmds, some p.1 ∉ st.txnQueue
  | _ => True

instance decidableFresh (site : Site DB) (st : Sched DB) : ∀ ev, Decidable (Fresh site st ev)
  | .submitTxn cmds => inferInstanceAs (Decidable (∀ p ∈ cmds.entries.head?, ∀ c ∈ p.2.head?,
      st.dtxns.find (site.rootId c) = none))
  | .sendBatch b => inferInstanceAs (Decidable ((b.cmds.map fst).Nodup ∧
      ∀ p ∈ b.cmds, some p.1 ∉ st.txnQueue))
  | .sendDepValues _ _ => isTrue trivial
  | .sendTxnOutput _ _ _ => isTrue trivial

theorem clear_unexecuted {pieces : List SimpleCommand} :
    ∀ c ∈ pieces.map clear, c.localExecuted = false := by
  intro c hc
  obtain ⟨c0, -, rfl⟩ := mem_map.mp hc
  rfl

theorem own_new (site : Site DB) (cmds : Cmds) (t : ℕ) : ((site.newTx t).own site cmds).New := by
  rw [TxSlog.own]
  split
  · exact ⟨clear_unexecuted, .inl (by rw [length_map]), rfl, rfl, rfl, rfl⟩
  · exact ⟨forall_mem_nil _, .inr rfl, rfl, rfl, rfl, rfl⟩

theorem submit_new (site : Site DB) (cmds : Cmds) (t : ℕ) :
    ((site.newTx t).submit site cmds).New := by
  have h := own_new site cmds t
  exact ⟨h.pieces, h.nLocal, rfl, h.dreqs, rfl, h.executed⟩

theorem onSubmitTxn_eq {cmds : Cmds} (hfresh : Fresh site st (.submitTxn cmds))
    (h : st.onSubmitTxn site cmds = some st') :
    ∃ c, (cmds.entries.head?.bind fun p => p.2.head?) = some c ∧
      st.dtxns.find (site.rootId c) = none ∧ st' = { st with
        dtxns := st.dtxns.set (site.rootId c) ((site.newTx (site.rootId c)).submit site cmds) } := by
  obtain ⟨c, hc, rfl⟩ := Option.map_eq_some_iff.mp h
  obtain ⟨p, hp, hpc⟩ := Option.bind_eq_some_iff.mp hc
  have hno : st.dtxns.find (site.rootId c) = none := hfresh p hp c hpc
  exact ⟨c, hc, hno, by dsimp only; rw [hno, Option.getD_none]⟩

theorem onSubmitTxn_moves {cmds : Cmds} (hfresh : Fresh site st (.submitTxn cmds))
    (hrecord : ∀ t ∈ site.txnId cmds, src.records t ((site.newTx t).submit site cmds))
    (h : st.onSubmitTxn site cmds = some st') : Moves site src st st' := by
  obtain ⟨c, hc, hno, rfl⟩ := onSubmitTxn_eq hfresh h
  have hid : site.txnId cmds = some (site.rootId c) := by rw [Site.txnId, hc]; rfl
  exact .single (.enter hno (submit_new site cmds _) (hrecord _ hid))

theorem received_new (site : Site DB) (pieces : List SimpleCommand) (coordSite : ℕ) :
    (site.received pieces coordSite).New :=
  ⟨clear_unexecuted, .inl (by rw [Site.received, length_map]), rfl, rfl, rfl, rfl⟩

theorem insert_moves {i : ℕ} (hfresh : ∀ p ∈ b.cmds[i]?, some p.1 ∉ st.txnQueue)
    (hrecord : ∀ p ∈ b.cmds[i]?, st.dtxns.find p.1 = none →
      ∀ coord, src.records p.1 (site.received p.2 coord)) (h : st.insert site b i = .ok st') :
    Moves site src st st' ∧
      ∃ p k, b.cmds[i]? = some p ∧ st'.txnQueue = st.txnQueue.set k (some p.1) := by
  rw [Sched.insert] at h
  split at h
  · next cmd coord touched hcmd _ _ =>
    have hnew := hfresh cmd hcmd
    split at h
    · cases h
    · split at h
      · next d hd =>
        split at h
        · obtain ⟨hslot, rfl⟩ := enqueue_ok h
          exact ⟨.single (.enqueue hslot hd hnew), cmd, _, hcmd, rfl⟩
        · cases h
      · next hno =>
        obtain ⟨hslot, rfl⟩ := enqueue_ok h
        have henter : Move site src st
            { st with dtxns := st.dtxns.set cmd.1 (site.received cmd.2 coord.2) } :=
          Move.enter hno (received_new site cmd.2 coord.2) (hrecord cmd hcmd hno coord.2)
        exact ⟨(ReflTransGen.single henter).tail
          (Move.enqueue hslot (Dict.find_set_self _ _ _) hnew), cmd, _, hcmd, rfl⟩
  · cases h

/-- An event brings what may come. -/
def Supply.Allows (site : Site DB) (st : Sched DB) (src : Supply) : SiteEvent → Prop
  | .submitTxn cmds => ∀ t ∈ site.txnId cmds, src.records t ((site.newTx t).submit site cmds)
  | .sendBatch b => ∀ p ∈ b.cmds, st.dtxns.find p.1 = none →
      ∀ coord, src.records p.1 (site.received p.2 coord)
  | .sendDepValues t values => src.values t values
  | .sendTxnOutput _ _ _ => True

theorem insertAll_moves (hids : (b.cmds.map fst).Nodup) :
    ∀ {is : List ℕ} {st : Sched DB}, is.Nodup →
      (∀ i ∈ is, ∀ p ∈ b.cmds[i]?, some p.1 ∉ st.txnQueue) →
      src.Allows site st (.sendBatch b) → st.insertAll site b is = .ok st' → Moves site src st st'
  | [], st, _, _, _, h => by
    obtain rfl : st = st' := Except.ok.inj h
    exact .refl
  | i :: is, st, hnodup, hfresh, hrecord, h => by
    obtain ⟨hi, hnodup⟩ := nodup_cons.mp hnodup
    obtain ⟨st1, hfirst, h⟩ := insertAll_cons h
    obtain ⟨hmoves, p, k, hp, hqueue⟩ := insert_moves (hfresh i mem_cons_self)
      (fun p hp => hrecord p (mem_of_getElem? hp)) hfirst
    refine hmoves.trans (insertAll_moves hids hnodup (fun j hj q hq hin => ?_)
      (fun q hq hno => hrecord q hq ((moves_onward hmoves).unknown hno)) h)
    rw [hqueue] at hin
    rcases mem_or_eq_of_mem_set hin with hin | heq
    · exact hfresh j (mem_cons_of_mem _ hj) q hq hin
    · -- two positions with one id
      have hlt := (List.getElem?_eq_some_iff.mp hq).1
      have hget : ∀ {n : ℕ} {r : ℕ × List SimpleCommand}, b.cmds[n]? = some r →
          (b.cmds.map fst)[n]? = some r.1 := fun hr => by rw [getElem?_map, hr]; rfl
      have hij : j = i := by
        refine (getElem?_inj (by rw [length_map]; exact hlt) hids).mp ?_
        rw [hget hq, hget hp, Option.some.inj heq]
      exact hi (hij ▸ hj)

/-- The pending values are of those that may come. -/
def Supply.Pending (src : Supply) (st : Sched DB) : Prop :=
  ∀ e ∈ st.pendingDepValues, src.values e.1 e.2

theorem Without.subset {α : Type} {l l' : List α} {x : α} (h : Without l x l') : l' ⊆ l := by
  rcases h with rfl | ⟨kept, rest, rfl, rfl⟩
  · exact fun _ h => h
  · exact append_subset.mpr ⟨subset_append_left _ _,
      fun _ h => mem_append_right _ (mem_cons_of_mem _ h)⟩

theorem Move.pending (hm : Move site src st st') (h : src.Pending st) : src.Pending st' := by
  cases hm with
  | merge _ _ hpending => exact fun e he => h e (hpending.subset he)
  | defer _ hvalues => exact forall_mem_concat h hvalues
  | _ => exact h

theorem moves_pending (hm : Moves site src st st') (h : src.Pending st) : src.Pending st' := by
  induction hm with
  | refl => exact h
  | tail _ hlast ih => exact hlast.pending ih

section
variable (hfresh : Fresh site st (.sendBatch b)) (hrecord : src.Allows site st (.sendBatch b))
  (h : st.onSendBatch site b = .ok st')
include hfresh hrecord h

theorem onSendBatch_queued :
    ∃ st1, Moves site src st st1 ∧ st' = (st1.execTxnQueue site).checkPendingDeps site := by
  obtain ⟨st1, hall, rfl⟩ := onSendBatch_ok h
  have hextend : Moves site src st (st.extend b) := .single (.extend _)
  have hinsert : Moves site src (st.extend b) st1 := by
    refine insertAll_moves hfresh.1 nodup_range (fun i _ p hp hin => ?_) hrecord hall
    rcases mem_append.mp hin with hin | hin
    · exact hfresh.2 p (mem_of_getElem? hp) hin
    · cases eq_of_mem_replicate hin
  exact ⟨_, (hextend.trans hinsert).trans notify_moves, rfl⟩

theorem onSendBatch_moves (hs : Sound st) (hpending : src.Pending st) : Moves site src st st' := by
  obtain ⟨st1, hqueued, rfl⟩ := onSendBatch_queued hfresh hrecord h
  have hexec := hqueued.trans (execTxnQueue_moves (hs.moves hqueued))
  exact hexec.trans (checkPendingDeps_moves (hs.moves hexec) (moves_pending hexec hpending))

end

theorem any_allows (site : Site DB) (st : Sched DB) (ev : SiteEvent) :
    Supply.any.Allows site st ev := by
  cases ev with
  | submitTxn => exact fun _ _ => trivial
  | sendBatch => exact fun _ _ _ _ => trivial
  | sendDepValues | sendTxnOutput => exact trivial

theorem any_pending (st : Sched DB) : Supply.any.Pending st := fun _ _ => trivial

theorem siteStep_cases {ev : SiteEvent} (hs : Sound st) (hfresh : Fresh site st ev)
    (hpending : src.Pending st) (hallow : src.Allows site st ev)
    (h : siteStep site st ev = some st') : Moves site src st st' ∨
      ∃ t par output d, ev = .sendTxnOutput t par output ∧ st.dtxns.find t = some d ∧
        d.parOutputReceived.find par = some false ∧ st' = st.receive site t par d := by
  cases ev with
  | submitTxn cmds => exact .inl (onSubmitTxn_moves hfresh hallow h)
  | sendBatch b => exact .inl (onSendBatch_moves hfresh hallow (ok_of_toOption h) hs hpending)
  | sendDepValues t values =>
    obtain rfl := Option.some.inj h
    exact .inl (onSendDepValues_moves hs hallow)
  | sendTxnOutput t par output =>
    obtain ⟨d, hd, ⟨-, rfl⟩ | ⟨hpar, hst'⟩⟩ := onSendTxnOutput_cases output h
    · exact .inl .refl
    · exact .inr ⟨t, par, output, d, rfl, hd, hpar, hst'⟩

theorem moves_inv {I : Sched DB → Prop}
    (hmove : ∀ st st', Sound st → I st → Move site src st st' → I st')
    (hs : Sound st) (hi : I st) (hm : Moves site src st st') : I st' := by
  have hboth : Sound st' ∧ I st' := by
    induction hm with
    | refl => exact ⟨hs, hi⟩
    | tail _ hlast ih => exact ⟨ih.1.move hlast, hmove _ _ ih.1 ih.2 hlast⟩
  exact hboth.2

theorem Sound.step {ev : SiteEvent} (hs : Sound st) (hfresh : Fresh site st ev)
    (h : siteStep site st ev = some st') : Sound st' := by
  rcases siteStep_cases hs hfresh (any_pending st) (any_allows site st ev) h with
    hmoves | ⟨t, par, output, d, -, hd, -, rfl⟩
  · exact hs.moves hmoves
  · exact hs.receive hd

end

end Fiss.Slog
