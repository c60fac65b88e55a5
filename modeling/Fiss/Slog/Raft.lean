import Fiss.Schemes.Cursor
import Fiss.Slog.Manager

/-! The global order. The raft leader numbers the transactions that touch several regions, commits
    them as the append acks come, and sends each, when it and all before it are committed, to the
    manager that leads each region: its pieces for that region, or a message without pieces where it
    has none. A manager takes the messages in any order.

    The followers' copies of the log and the times are left out. -/

namespace Fiss.Slog
open Fiss.Rcc List Function Manager
open Option (some.inj map_eq_some_iff bind_some isSome_map map_some isSome_some)

def nRepPerShard : ℕ := 3

/-- The shards of a region, and the sites with a region manager. -/
structure Topology where
  nShardPerRegion : ℕ
  slogRpcRegionManagers : OrdSet ℕ

section

variable (top : Topology) (r : Raft)

/-- The sites whose manager leads its region. -/
def Topology.leaders : List ℕ :=
  top.slogRpcRegionManagers.elems.filter fun site =>
    site % (top.nShardPerRegion * nRepPerShard) = 0

/-- The region of a site. -/
def Topology.ridOf (site : ℕ) : ℕ := site / (nRepPerShard * top.nShardPerRegion)

/-- `cmds_by_region[rid]`, empty where there is none. -/
def Topology.inRegion (rid : ℕ) (cmds : Cmds) : Cmds :=
  ⟨cmds.entries.filter fun e => e.1 / top.nShardPerRegion = rid, cmds.sorted.filter _⟩

/-- `logEntry` of the raft leader. -/
structure RaftEntry where
  cmds : Cmds
  coordSite : ℕ
  committed : Bool := false
  sent : Bool := false
  deriving DecidableEq

def RaftEntry.markCommitted (e : RaftEntry) : RaftEntry := { e with committed := true }

def RaftEntry.markSent (e : RaftEntry) : RaftEntry := { e with sent := true }

/-- `AuxiliaryRaftImpl`. For the record it keeps the messages it has sent, with their target sites. -/
structure Raft where
  log : List RaftEntry := []
  nextSendIndex : ℕ := 0
  globalLogBarrierIndices : List ℕ := []
  nextSendGlobalBarrier : ℕ := 0
  sent : List (ℕ × Ordered) := []
  deriving DecidableEq

namespace Raft

/-- `SlogRaftSubmit`: every hundredth index is a barrier. -/
def slogRaftSubmit (cmds : Cmds) (handlerSite : ℕ) : Raft :=
  { r with
    log := r.log ++ [⟨cmds, handlerSite, false, false⟩]
    globalLogBarrierIndices := if r.log.length % 100 = 0 then
      r.globalLogBarrierIndices ++ [r.log.length] else r.globalLogBarrierIndices }

/-- What the manager of a site is sent for the entry at an index. -/
def message (index : ℕ) (e : RaftEntry) (barriers : List ℕ) (site : ℕ) : Ordered where
  cmds := top.inRegion (top.ridOf site) e.cmds
  index := index
  handlerSite := e.coordSite
  touchedAllPars := e.cmds.keys
  barriers := barriers

def sendToAllPars (index : ℕ) (e : RaftEntry) : Raft :=
  let barriers := r.globalLogBarrierIndices.drop r.nextSendGlobalBarrier
  { r with
    nextSendGlobalBarrier := r.nextSendGlobalBarrier + barriers.length
    sent := r.sent ++ top.leaders.map fun site => (site, message top index e barriers site) }

/-- The loop body for the entry at `next_send_index_`. -/
def sendNext (e : RaftEntry) : Raft :=
  let r' := r.sendToAllPars top r.nextSendIndex e
  { r' with
    log := r'.log.modify r.nextSendIndex RaftEntry.markSent
    nextSendIndex := r.nextSendIndex + 1 }

/-- The loop over the entries from `next_send_index_` on, up to the first that is not committed. -/
def sendLoop (top : Topology) : List RaftEntry → Raft → Option Raft
  | [], r => some r
  | e :: es, r =>
    if e.committed then
      -- `verify(log_[i]->sent == false)`
      if e.sent then none else sendLoop top es (r.sendNext top e)
    else some r

/-- The global order: the pieces and the coordinating site of every entry. -/
def orders : List (Cmds × ℕ) := r.log.map fun e => (e.cmds, e.coordSite)

/-- The log with the entry at an index committed. -/
def commit (index : ℕ) : Raft :=
  { r with log := r.log.modify index RaftEntry.markCommitted }

/-- `RaftAppendAck`: the first ack of an entry commits it. -/
def raftAppendAck (index : ℕ) : Option Raft :=
  -- `verify(log_.size() > index)`
  (r.log[index]?).bind fun e =>
    if e.committed then some r
    else (r.commit index).sendLoop top ((r.commit index).log.drop r.nextSendIndex)

end Raft

/-! ### The leader and the managers -/

/-- The raft leader, the managers by their site, and which of the sent messages were delivered. -/
structure Net where
  raft : Raft := {}
  managers : ℕ → Manager := fun _ => {}
  delivered : List ℕ := []

inductive NetEvent where
  | submit (cmds : Cmds) (handlerSite : ℕ)
  | appendAck (index : ℕ)
  /-- a message, by its place among the sent ones -/
  | deliver (k : ℕ)
  | rmIRT (site : ℕ) (cmds : Cmds) (handlerSite : ℕ)

/-- One step: a message is delivered once. -/
def netStep (st : Net) : NetEvent → Option Net
  | .submit cmds handlerSite => some { st with raft := st.raft.slogRaftSubmit cmds handlerSite }
  | .appendAck index => (st.raft.raftAppendAck top index).map fun r => { st with raft := r }
  | .deliver k =>
    if k ∈ st.delivered then none
    else (st.raft.sent[k]?).bind fun p =>
      ((st.managers p.1).slogSendOrderedCRT p.2).map fun m =>
        { st with
          managers := update st.managers p.1 m
          delivered := k :: st.delivered }
  | .rmIRT site cmds handlerSite =>
    let m := (st.managers site).sendRmIRT cmds handlerSite
    some { st with managers := update st.managers site m }

/-- The cross-region transactions of a manager's log, with their global indices. -/
def crts (log : List LogEntry) : List (ℕ × Cmds × ℕ) :=
  log.filterMap fun e => e.globalIndex.map fun i => (i, e.cmds, e.coordSite)

/-- The global order restricted to a region: the entries with pieces there. -/
def restricted (rid : ℕ) (orders : List (Cmds × ℕ)) : List (ℕ × Cmds × ℕ) :=
  orders.zipIdx.filterMap fun p => if (top.inRegion rid p.1.1).isEmpty then none
    else some (p.2, top.inRegion rid p.1.1, p.1.2)

/-- Every message for a site was delivered. -/
def Net.AllDelivered (st : Net) (site : ℕ) : Prop :=
  ∀ k msg, st.raft.sent[k]? = some (site, msg) → k ∈ st.delivered

/-- What may happen in a state: acks for entries of the log, messages that were not delivered. -/
def Net.Possible (st : Net) : NetEvent → Prop
  | .appendAck index => index < st.raft.log.length
  | .deliver k => k < st.raft.sent.length ∧ k ∉ st.delivered
  | _ => True

/-- The global order is respected: the indices are sent in order, each once to every region, as far
    as the log is committed without a gap; the cross-region transactions of a region's log are the
    first of the global order with pieces in the region, and when nothing is under way all that were
    sent; and no step that may happen fails. -/
structure GlobalOrder (top : Topology) (st : Net) : Prop where
  sent : st.raft.sent.map (fun p => (p.2.index, p.1)) =
    range st.raft.nextSendIndex ×ˢ top.leaders
  committed : AtGap RaftEntry.committed st.raft.log st.raft.nextSendIndex
  logs : ∀ site ∈ top.leaders, crts (st.managers site).log = restricted top (top.ridOf site)
    (st.raft.orders.take (st.managers site).globalNextInsertIndex)
  bounded : ∀ site ∈ top.leaders,
    (st.managers site).globalNextInsertIndex ≤ st.raft.nextSendIndex
  complete : ∀ site ∈ top.leaders, st.AllDelivered site →
    (st.managers site).globalNextInsertIndex = st.raft.nextSendIndex
  taken : ∀ ev, st.Possible ev → (netStep top st ev).isSome

end

/-! ### The raft leader -/

section

variable {top : Topology} {r r' : Raft} {e : RaftEntry} {i : ℕ}

/-- The messages are those of the entries before the cursor, and the flags of these are set. -/
structure Sending (top : Topology) (r : Raft) : Prop where
  flags : ∀ i e, r.log[i]? = some e → (e.sent = true ↔ i < r.nextSendIndex)
  sent : r.sent.map (fun p => (p.2.index, p.1)) = range r.nextSendIndex ×ˢ top.leaders
  content : ∀ p ∈ r.sent, ∃ o, r.orders[p.2.index]? = some o ∧
    p.2.cmds = top.inRegion (top.ridOf p.1) o.1 ∧ p.2.handlerSite = o.2

theorem orders_modify {f : RaftEntry → RaftEntry}
    (hf : ∀ e, (f e).cmds = e.cmds ∧ (f e).coordSite = e.coordSite) (log : List RaftEntry) (i : ℕ) :
    ((log.modify i f).map fun e => (e.cmds, e.coordSite)) =
      log.map fun e => (e.cmds, e.coordSite) := by
  refine ext_getElem? fun j => ?_
  rw [getElem?_map, getElem?_map]
  rcases eq_or_ne i j with rfl | hij
  · rw [getElem?_modify_eq]
    cases log[i]? with
    | none => rfl
    | some e => exact congrArg some (Prod.ext (hf e).1 (hf e).2)
  · rw [getElem?_modify_ne _ _ hij]

theorem orders_sendNext (e : RaftEntry) : (r.sendNext top e).orders = r.orders :=
  orders_modify (f := RaftEntry.markSent) (fun _ => ⟨rfl, rfl⟩) r.log r.nextSendIndex

theorem orders_commit : (r.commit i).orders = r.orders :=
  orders_modify (f := RaftEntry.markCommitted) (fun _ => ⟨rfl, rfl⟩) r.log i

theorem log_sendNext (e : RaftEntry) :
    (r.sendNext top e).log = r.log.modify r.nextSendIndex RaftEntry.markSent := rfl

theorem product_concat (n : ℕ) (sites : List ℕ) : range (n + 1) ×ˢ sites =
    range n ×ˢ sites ++ sites.map fun site => (n, site) := by
  rw [range_succ]
  simp [SProd.sprod, product]

theorem sendNext_sending (h : Sending top r) (he : r.log[r.nextSendIndex]? = some e) :
    Sending top (r.sendNext top e) where
  flags i e' he' := by
    rw [log_sendNext] at he'
    rcases eq_or_ne r.nextSendIndex i with rfl | hi
    · rw [getElem?_modify_eq, he] at he'
      obtain rfl := some.inj he'
      exact iff_of_true rfl (Nat.lt_succ_self _)
    · rw [getElem?_modify_ne _ _ hi] at he'
      rw [h.flags i e' he', show (r.sendNext top e).nextSendIndex = r.nextSendIndex + 1 from rfl]
      omega
  sent := by
    rw [show (r.sendNext top e).nextSendIndex = r.nextSendIndex + 1 from rfl, product_concat]
    simp only [Raft.sendNext, Raft.sendToAllPars, map_append, h.sent, map_map]
    rfl
  content p hp := by
    rw [orders_sendNext]
    rcases mem_append.mp hp with hp | hp
    · exact h.content p hp
    · obtain ⟨site, -, rfl⟩ := mem_map.mp hp
      refine ⟨(e.cmds, e.coordSite), ?_, rfl, rfl⟩
      rw [Raft.orders, getElem?_map]
      exact congrArg (Option.map _) he

/-- The entries before the cursor are committed. -/
def Raft.Committed (r : Raft) : Prop :=
  ∀ j < r.nextSendIndex, ∃ x, r.log[j]? = some x ∧ x.committed = true

theorem sendNext_committed (h : r.Committed) (he : r.log[r.nextSendIndex]? = some e)
    (hcommitted : e.committed = true) : (r.sendNext top e).Committed := by
  intro j hj
  rw [log_sendNext]
  rcases Nat.lt_succ_iff_lt_or_eq.mp hj with hj | rfl
  · rw [getElem?_modify_ne _ _ hj.ne']
    exact h j hj
  · rw [getElem?_modify_eq, he]
    exact ⟨e.markSent, rfl, hcommitted⟩

theorem sendLoop_spec : ∀ {es : List RaftEntry} {r : Raft}, es = r.log.drop r.nextSendIndex →
    Sending top r → r.Committed → ∃ r', r.sendLoop top es = some r' ∧ Sending top r' ∧
      AtGap RaftEntry.committed r'.log r'.nextSendIndex ∧ r'.orders = r.orders ∧ r.sent <+: r'.sent
  | [], r, hes, h, hbefore => by
    refine ⟨r, rfl, h, ⟨hbefore, fun x hx => ?_⟩, rfl, prefix_rfl⟩
    rw [getElem?_eq_none (drop_eq_nil_iff.mp hes.symm)] at hx
    cases hx
  | e :: es, r, hes, h, hbefore => by
    have he : r.log[r.nextSendIndex]? = some e := by
      rw [← Nat.add_zero r.nextSendIndex, ← getElem?_drop, ← hes]
      rfl
    rw [Raft.sendLoop]
    split
    · next hcommitted =>
      have hunsent : ¬ e.sent = true := fun hsent => lt_irrefl _ ((h.flags _ e he).mp hsent)
      have hrest : es = (r.sendNext top e).log.drop (r.sendNext top e).nextSendIndex := by
        rw [log_sendNext, show (r.sendNext top e).nextSendIndex = r.nextSendIndex + 1 from rfl,
          drop_modify_of_lt _ _ _ _ (Nat.lt_add_one _), ← drop_drop, ← hes]
        rfl
      obtain ⟨r', hr', hs', hgap, horders, hpre⟩ := sendLoop_spec hrest (sendNext_sending h he)
        (sendNext_committed hbefore he hcommitted)
      rw [if_neg hunsent]
      exact ⟨r', hr', hs', hgap, horders.trans (orders_sendNext e),
        (prefix_append _ _).trans hpre⟩
    · next hopen =>
      refine ⟨r, rfl, h, ⟨hbefore, fun x hx => ?_⟩, rfl, prefix_rfl⟩
      rw [← some.inj (he.symm.trans hx)]
      exact eq_false_of_ne_true hopen

theorem commit_sending (h : Sending top r) : Sending top (r.commit i) where
  flags j e he := by
    rw [Raft.commit] at he
    rcases eq_or_ne i j with rfl | hij
    · rw [getElem?_modify_eq] at he
      obtain ⟨e0, he0, rfl⟩ := map_eq_some_iff.mp he
      exact h.flags i e0 he0
    · rw [getElem?_modify_ne _ _ hij] at he
      exact h.flags j e he
  sent := h.sent
  content := by
    rw [orders_commit]
    exact h.content

theorem commit_committed (h : r.Committed) : (r.commit i).Committed := by
  intro j hj
  obtain ⟨x, hx, hcommitted⟩ := h j hj
  rw [Raft.commit]
  rcases eq_or_ne i j with rfl | hij
  · rw [getElem?_modify_eq, hx]
    exact ⟨x.markCommitted, rfl, rfl⟩
  · rw [getElem?_modify_ne _ _ hij]
    exact ⟨x, hx, hcommitted⟩

theorem raftAppendAck_spec (h : Sending top r)
    (hgap : AtGap RaftEntry.committed r.log r.nextSendIndex) (hi : i < r.log.length) :
    ∃ r', r.raftAppendAck top i = some r' ∧ Sending top r' ∧
      AtGap RaftEntry.committed r'.log r'.nextSendIndex ∧ r'.orders = r.orders ∧
      r.sent <+: r'.sent := by
  rw [Raft.raftAppendAck, getElem?_eq_getElem hi, bind_some]
  split
  · exact ⟨r, rfl, h, hgap, rfl, prefix_rfl⟩
  · obtain ⟨r', hr', hs', hgap', horders, hpre⟩ := sendLoop_spec (r := r.commit i) rfl
      (commit_sending h) (commit_committed hgap.before)
    exact ⟨r', hr', hs', hgap', horders.trans orders_commit, hpre⟩

theorem orders_submit (cmds : Cmds) (site : ℕ) :
    (r.slogRaftSubmit cmds site).orders = r.orders ++ [(cmds, site)] := map_append

theorem submit_sending (h : Sending top r) (hle : r.nextSendIndex ≤ r.log.length) (cmds : Cmds)
    (site : ℕ) : Sending top (r.slogRaftSubmit cmds site) where
  flags j e he := by
    rw [Raft.slogRaftSubmit] at he
    rcases lt_or_ge j r.log.length with hj | hj
    · rw [getElem?_append_left hj] at he
      exact h.flags j e he
    · rw [getElem?_append_right hj] at he
      obtain rfl := mem_singleton.mp (mem_of_getElem? he)
      exact iff_of_false (by simp) (by simp only [Raft.slogRaftSubmit]; omega)
  sent := h.sent
  content p hp := by
    obtain ⟨o, ho, hcontent⟩ := h.content p hp
    refine ⟨o, ?_, hcontent⟩
    rw [orders_submit, getElem?_append_left (List.getElem?_eq_some_iff.mp ho).1]
    exact ho

end

/-! ### A manager -/

section

variable {top : Topology} {rid : ℕ} {orders : List (Cmds × ℕ)} {m m' : Manager} {msg : Ordered}

/-- What a slot holds is what the global order has at its index for the region. -/
def Matches (top : Topology) (rid : ℕ) (orders : List (Cmds × ℕ)) (i : ℕ) (cmds : Cmds) (site : ℕ) :
    Prop :=
  ∃ o, orders[i]? = some o ∧ cmds = top.inRegion rid o.1 ∧ site = o.2

/-- The slots are of the global order, and the log has what comes before the first empty one. -/
structure InOrder (top : Topology) (rid : ℕ) (orders : List (Cmds × ℕ)) (m : Manager) : Prop where
  slots : ∀ i e, m.slot i = some e → Matches top rid orders i e.cmds e.coordSite
  before : ∀ i < m.globalNextInsertIndex, (m.slot i).isSome
  gap : m.slot m.globalNextInsertIndex = none
  log : crts m.log = restricted top rid (orders.take m.globalNextInsertIndex)

theorem crts_append (log log' : List LogEntry) : crts (log ++ log') = crts log ++ crts log' :=
  filterMap_append

theorem restricted_concat {o : Cmds × ℕ} {n : ℕ} (ho : orders[n]? = some o) :
    restricted top rid (orders.take (n + 1)) = restricted top rid (orders.take n) ++
      if (top.inRegion rid o.1).isEmpty then [] else [(n, top.inRegion rid o.1, o.2)] := by
  have hn : n < orders.length := (List.getElem?_eq_some_iff.mp ho).1
  rw [take_add_one, ho, restricted, restricted, zipIdx_append, filterMap_append,
    length_take, Nat.min_eq_left hn.le, Nat.zero_add]
  refine congrArg (_ ++ ·) ?_
  rw [Option.toList_some, zipIdx_singleton, filterMap_cons]
  split
  · next h =>
    split at h
    · next hempty => rw [if_pos hempty, filterMap_nil]
    · cases h
  · next h =>
    split at h
    · cases h
    · next hempty => rw [if_neg hempty, ← some.inj h, filterMap_nil]

theorem insertNext_log (hlog : crts m.log = restricted top rid (orders.take m.globalNextInsertIndex))
    {e : LogEntry} (he : Matches top rid orders m.globalNextInsertIndex e.cmds e.coordSite)
    (touched : List ℕ) : crts (m.insertNext touched e).log =
      restricted top rid (orders.take (m.insertNext touched e).globalNextInsertIndex) := by
  obtain ⟨o, ho, hcmds, hsite⟩ := he
  obtain ⟨hl, hnext, -⟩ := insertNext_spec m touched e
  rw [hl, hnext, crts_append, hlog, restricted_concat ho, ← hcmds, ← hsite, appended, appended,
    append_nil]
  split <;> rfl

theorem drain_log (touched : List ℕ) : ∀ {slots : List (Option LogEntry)} {m : Manager},
    (∀ n e, slots[n]? = some (some e) →
      Matches top rid orders (m.globalNextInsertIndex + n) e.cmds e.coordSite) →
    crts m.log = restricted top rid (orders.take m.globalNextInsertIndex) →
    crts (m.drain touched slots).log =
      restricted top rid (orders.take (m.drain touched slots).globalNextInsertIndex)
  | [], _, _, hlog => hlog
  | none :: _, _, _, hlog => hlog
  | some e :: slots, m, hslots, hlog => by
    rw [drain]
    refine drain_log touched (fun n e' he' => ?_) (insertNext_log hlog (hslots 0 e rfl) touched)
    rw [(insertNext_spec m touched e).2.1, Nat.add_assoc, Nat.add_comm 1 n]
    exact hslots (n + 1) e' he'

theorem slot_filled {slots : List (Option LogEntry)} {n : ℕ} (hn : n < (filled slots).length) :
    ((slots[n]?).join).isSome := by
  have h := (getElem_filled (e := (filled slots)[n]) slots n).mp (getElem?_eq_getElem hn)
  rw [h.1]
  rfl

/-- A message of the global order keeps a manager in order, and fills its slot. -/
theorem slogSendOrderedCRT_inOrder (h : InOrder top rid orders m)
    (hmsg : Matches top rid orders msg.index msg.cmds msg.handlerSite)
    (hm' : m.slogSendOrderedCRT msg = some m') : InOrder top rid orders m' ∧
      ∀ j, (m'.slot j).isSome ↔ j = msg.index ∨ (m.slot j).isSome := by
  obtain ⟨-, hcontent, hgap, -⟩ := slogSendOrderedCRT_spec hm'
  have hsome : ∀ j, (m'.slot j).isSome ↔ j = msg.index ∨ (m.slot j).isSome := fun j => by
    rw [← isSome_slot_fill, ← isSome_map (f := LogEntry.content), hcontent j,
      isSome_map]
  have hfill : ∀ i e, (m.fill msg).slot i = some e → Matches top rid orders i e.cmds e.coordSite := by
    intro i e he
    rw [slot_fill] at he
    split at he
    · next hi =>
      rw [← some.inj he, hi]
      exact hmsg
    · exact h.slots i e he
  obtain ⟨-, hm⟩ := Option.ite_none_right_eq_some.mp hm'
  obtain rfl := some.inj hm
  have hdrop : ∀ n, (((m.fill msg).globalLog.drop m.globalNextInsertIndex)[n]?).join =
      (m.fill msg).slot (m.globalNextInsertIndex + n) := fun n => by
    rw [getElem?_drop, slot]
  obtain ⟨-, hnext, -⟩ := drain_spec msg.touchedAllPars
    ((m.fill msg).globalLog.drop m.globalNextInsertIndex) (m.fill msg)
  refine ⟨⟨fun i e he => ?_, fun i hi => ?_, hgap, ?_⟩, hsome⟩
  · have hc := hcontent i
    rw [he, map_some] at hc
    obtain ⟨e0, he0, hc⟩ := map_eq_some_iff.mp hc.symm
    have hmatch := hfill i e0 he0
    rw [LogEntry.content, LogEntry.content, Prod.mk.injEq, Prod.mk.injEq] at hc
    rw [← hc.1, ← hc.2.1]
    exact hmatch
  · rw [hnext] at hi
    rcases lt_or_ge i m.globalNextInsertIndex with hlt | hge
    · exact (hsome i).mpr (.inr (h.before i hlt))
    · obtain ⟨n, rfl⟩ := Nat.exists_eq_add_of_le hge
      have hfilled := slot_filled (Nat.lt_of_add_lt_add_left hi)
      rw [hdrop, isSome_slot_fill] at hfilled
      exact (hsome _).mpr hfilled
  · refine drain_log _ (fun n e he => ?_) h.log
    exact hfill _ e ((hdrop n).symm.trans (congrArg Option.join he))

end

/-! ### The whole network -/

section

variable {top : Topology} {st st' : Net} {ev : NetEvent}

/-- Every manager is in order, and the filled slots are those of the messages delivered to it. -/
structure Managed (top : Topology) (st : Net) : Prop where
  inOrder : ∀ site, InOrder top (top.ridOf site) st.raft.orders (st.managers site)
  slots : ∀ site i, ((st.managers site).slot i).isSome ↔
    ∃ k ∈ st.delivered, ∃ msg, st.raft.sent[k]? = some (site, msg) ∧ msg.index = i
  known : ∀ k ∈ st.delivered, k < st.raft.sent.length

structure NetInv (top : Topology) (st : Net) : Prop where
  sending : Sending top st.raft
  committed : AtGap RaftEntry.committed st.raft.log st.raft.nextSendIndex
  managed : Managed top st

theorem inOrder_extends {rid : ℕ} {orders more : List (Cmds × ℕ)} {m : Manager}
    (h : InOrder top rid orders m) : InOrder top rid (orders ++ more) m where
  slots i e he := by
    obtain ⟨o, ho, hmatch⟩ := h.slots i e he
    exact ⟨o, by rw [getElem?_append_left (List.getElem?_eq_some_iff.mp ho).1, ho], hmatch⟩
  before := h.before
  gap := h.gap
  log := by
    rw [h.log]
    rcases Nat.eq_zero_or_pos m.globalNextInsertIndex with hzero | hpos
    · rw [hzero, take_zero, take_zero]
    · obtain ⟨e, he⟩ := Option.isSome_iff_exists.mp
        (h.before (m.globalNextInsertIndex - 1) (by omega))
      obtain ⟨o, ho, -⟩ := h.slots _ e he
      have hlt := (List.getElem?_eq_some_iff.mp ho).1
      rw [take_append_of_le_length (by omega)]

theorem managed_raft {r : Raft} {more : List (Cmds × ℕ)} (h : Managed top st)
    (horders : r.orders = st.raft.orders ++ more) (hpre : st.raft.sent <+: r.sent) :
    Managed top { st with raft := r } where
  inOrder site := by
    show InOrder top (top.ridOf site) r.orders (st.managers site)
    rw [horders]
    exact inOrder_extends (h.inOrder site)
  slots site i := by
    obtain ⟨later, hlater⟩ := hpre
    rw [h.slots site i]
    refine exists_congr fun k => and_congr_right fun hk => exists_congr fun msg =>
      and_congr_left fun _ => ?_
    show _ ↔ r.sent[k]? = some (site, msg)
    rw [← hlater, getElem?_append_left (h.known k hk)]
  known k hk := (h.known k hk).trans_le hpre.length_le

theorem rmIRT_inOrder {rid : ℕ} {orders : List (Cmds × ℕ)} {m : Manager}
    (h : InOrder top rid orders m) (cmds : Cmds) (site : ℕ) :
    InOrder top rid orders (m.sendRmIRT cmds site) where
  slots := h.slots
  before := h.before
  gap := h.gap
  log := by
    refine Eq.trans ?_ h.log
    rw [sendRmIRT, insertLocalLog, crts_append]
    exact append_nil _

theorem sent_unique (h : Sending top st.raft) {k k' site : ℕ} {msg msg' : Ordered}
    (hk : st.raft.sent[k]? = some (site, msg)) (hk' : st.raft.sent[k']? = some (site, msg'))
    (hindex : msg.index = msg'.index) : k = k' := by
  have hleaders : top.leaders.Nodup :=
    (top.slogRpcRegionManagers.sorted.imp fun hlt => hlt.ne).filter _
  have hnodup : (st.raft.sent.map fun p => (p.2.index, p.1)).Nodup := by
    rw [h.sent]
    exact nodup_range.product hleaders
  have hlt := (List.getElem?_eq_some_iff.mp hk).1
  have heq : (st.raft.sent.map fun p => (p.2.index, p.1))[k]? =
      (st.raft.sent.map fun p => (p.2.index, p.1))[k']? := by
    rw [getElem?_map, getElem?_map, hk, hk', map_some, map_some, hindex]
  exact (getElem?_inj (by rwa [length_map]) hnodup).mp heq

section
variable (h : NetInv top st)
include h

theorem slot_undelivered {k site : ℕ} {msg : Ordered}
    (hk : st.raft.sent[k]? = some (site, msg)) (hnew : k ∉ st.delivered) :
    (st.managers site).slot msg.index = none := by
  rw [← Option.not_isSome_iff_eq_none, h.managed.slots]
  rintro ⟨k', hk', msg', hsent, hindex⟩
  exact hnew (sent_unique h.sending hk hsent hindex.symm ▸ hk')

theorem deliver_managed {k site : ℕ} {msg : Ordered} {m : Manager}
    (hk : st.raft.sent[k]? = some (site, msg))
    (hm : (st.managers site).slogSendOrderedCRT msg = some m) : Managed top { st with
      managers := update st.managers site m
      delivered := k :: st.delivered } := by
  obtain ⟨o, ho, hcmds, hsite⟩ := h.sending.content _ (mem_of_getElem? hk)
  obtain ⟨hin, hslots⟩ := slogSendOrderedCRT_inOrder (h.managed.inOrder site)
    ⟨o, ho, hcmds, hsite⟩ hm
  refine ⟨fun site' => ?_, fun site' i => ?_, fun k' hk' => ?_⟩
  · rcases eq_or_ne site' site with rfl | hne
    · simp only [update_self]
      exact hin
    · simp only [update_of_ne hne]
      exact h.managed.inOrder site'
  · simp only [mem_cons, exists_eq_or_imp]
    rcases eq_or_ne site' site with rfl | hne
    · simp only [update_self]
      rw [hslots, h.managed.slots, hk]
      simp [eq_comm]
    · simp only [update_of_ne hne]
      rw [h.managed.slots, hk]
      simp [Ne.symm hne]
  · rcases mem_cons.mp hk' with rfl | hk'
    · exact (List.getElem?_eq_some_iff.mp hk).1
    · exact h.managed.known k' hk'

theorem netStep_inv (hstep : netStep top st ev = some st') : NetInv top st' := by
  cases ev with
  | submit cmds handlerSite =>
    obtain rfl := some.inj hstep
    exact ⟨submit_sending h.sending h.committed.le cmds handlerSite, h.committed.concat rfl,
      managed_raft h.managed (orders_submit cmds handlerSite) prefix_rfl⟩
  | appendAck index =>
    obtain ⟨r, hr, rfl⟩ := map_eq_some_iff.mp hstep
    obtain ⟨e, he, -⟩ := Option.bind_eq_some_iff.mp hr
    obtain ⟨r', hr', hsending, hgap, horders, hpre⟩ := raftAppendAck_spec h.sending h.committed
      (List.getElem?_eq_some_iff.mp he).1
    obtain rfl := some.inj (hr'.symm.trans hr)
    exact ⟨hsending, hgap, managed_raft h.managed (horders.trans (append_nil _).symm) hpre⟩
  | deliver k =>
    obtain ⟨hnew, hstep⟩ := Option.ite_none_left_eq_some.mp hstep
    obtain ⟨⟨site, msg⟩, hk, hstep⟩ := Option.bind_eq_some_iff.mp hstep
    obtain ⟨m, hm, rfl⟩ := map_eq_some_iff.mp hstep
    exact ⟨h.sending, h.committed, deliver_managed h hk hm⟩
  | rmIRT site cmds handlerSite =>
    obtain rfl := some.inj hstep
    refine ⟨h.sending, h.committed, fun site' => ?_, fun site' i => ?_, h.managed.known⟩
    · rcases eq_or_ne site' site with rfl | hne
      · simp only [update_self]
        exact rmIRT_inOrder (h.managed.inOrder site') cmds handlerSite
      · simp only [update_of_ne hne]
        exact h.managed.inOrder site'
    · refine Iff.trans ?_ (h.managed.slots site' i)
      rcases eq_or_ne site' site with rfl | hne
      · simp only [update_self]
        exact Iff.rfl
      · simp only [update_of_ne hne]

theorem netStep_taken (hev : st.Possible ev) : (netStep top st ev).isSome := by
  cases ev with
  | submit cmds handlerSite => rfl
  | appendAck index =>
    obtain ⟨r', hr', -⟩ := raftAppendAck_spec h.sending h.committed hev
    simp only [netStep, hr', map_some, isSome_some]
  | deliver k =>
    obtain ⟨hk, hnew⟩ := hev
    have hsent := getElem?_eq_getElem hk
    have hslot : (st.managers (st.raft.sent[k]).1).slot (st.raft.sent[k]).2.index = none :=
      slot_undelivered h hsent hnew
    simp only [netStep, if_neg hnew, hsent, bind_some, slogSendOrderedCRT,
      if_pos hslot, map_some, isSome_some]
  | rmIRT site cmds handlerSite => rfl

theorem exists_sent {i site : ℕ} :
    (∃ (k : ℕ) (msg : Ordered), st.raft.sent[k]? = some (site, msg) ∧ msg.index = i) ↔
      i < st.raft.nextSendIndex ∧ site ∈ top.leaders := by
  rw [← mem_range, ← mem_product, ← h.sending.sent, mem_map]
  constructor
  · rintro ⟨k, msg, hk, rfl⟩
    exact ⟨(site, msg), mem_of_getElem? hk, rfl⟩
  · rintro ⟨⟨site', msg⟩, hmem, heq⟩
    obtain ⟨k, hk⟩ := mem_iff_getElem?.mp hmem
    obtain ⟨rfl, rfl⟩ := Prod.mk.inj heq
    exact ⟨k, msg, hk, rfl⟩

theorem bounded_of_inv (site : ℕ) :
    (st.managers site).globalNextInsertIndex ≤ st.raft.nextSendIndex := by
  by_contra hlt
  obtain ⟨k, -, msg, hk, hindex⟩ := (h.managed.slots site _).mp
    ((h.managed.inOrder site).before st.raft.nextSendIndex (by omega))
  exact lt_irrefl _ ((exists_sent h).mp ⟨k, msg, hk, hindex⟩).1

theorem globalOrder_of_inv : GlobalOrder top st where
  sent := h.sending.sent
  committed := h.committed
  logs site _ := (h.managed.inOrder site).log
  bounded site _ := bounded_of_inv h site
  complete site hsite hall := by
    refine le_antisymm (bounded_of_inv h site) ?_
    by_contra hlt
    obtain ⟨k, msg, hk, hindex⟩ := (exists_sent h).mpr ⟨not_le.mp hlt, hsite⟩
    have hsome := (h.managed.slots site _).mpr ⟨k, hall k msg hk, msg, hk, hindex⟩
    rw [(h.managed.inOrder site).gap] at hsome
    cases hsome
  taken _ hev := netStep_taken h hev

end

end

end Fiss.Slog
