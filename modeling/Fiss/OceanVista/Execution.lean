import Fiss.OceanVista.Gossip

/-! The order in which a server of Ocean Vista executes transactions. A transaction is stored with
    its timestamp and executed when its coordinator has asked for it and the watermark has passed
    the timestamp: by `OnPublish`, which goes through the stored transactions in the order of their
    ids, or at once by `OnExecute` if the watermark is high enough when it comes.

    `ts` is the timestamp the coordinator of a transaction was given, which its `OnStore` carries.
    Messages come in any order, `OnExecute` also before `OnStore`, which the coordinator does not
    rule out at a replica. What is executed is recorded in `executed`; the pieces are left out, and
    so are `IsExecuted`, which nothing sets, and the callbacks. -/

namespace Fiss.OceanVista
open List Function Option OrdSet

inductive OVTxnStatus where
  | init
  | stored
  | canExecute
  | executed
  deriving DecidableEq

/-- `TxOV`, the record of a transaction. -/
structure TxOV where
  ovts : OvTs := {}
  ovStatus : OVTxnStatus := .init
  fullyDispatched : Bool := false
  /-- `ptr_output_repy_` is set -/
  outputReply : Bool := false
  deriving DecidableEq

/-- A server with its transactions; a record nobody has asked for is a new one. -/
structure Site extends SchedulerOV where
  dtxns : ℕ → TxOV := fun _ => {}
  storedTxnsById : OrdSet ℕ := ∅
  executed : List ℕ := []

namespace Site

variable {s s' : Site} {txnId t u : ℕ} {dcOvts : OvTs} {reading : ℤ} {ts : ℕ → OvTs}

def setTxn (s : Site) (txnId : ℕ) (d : TxOV) : Site :=
  { s with dtxns := update s.dtxns txnId d }

/-- `CommitExecute`, and the transaction is no longer among the stored ones. -/
def commitExecute (txnId : ℕ) (s : Site) : Site :=
  { s with
    storedTxnsById := s.storedTxnsById.erase txnId
    executed := s.executed ++ [txnId] }

def onStore (txnId : ℕ) (ovts : OvTs) (s : Site) : Option Site :=
  if (s.dtxns txnId).fullyDispatched then none
  else some { s.setTxn txnId { s.dtxns txnId with
      fullyDispatched := true, ovts := ovts, ovStatus := .stored } with
    storedTxnsById := s.storedTxnsById.insert txnId }

/-- A stored transaction that the loop of `OnPublish` executes. -/
def due (s : Site) (txnId : ℕ) : Bool :=
  (s.dtxns txnId).ovts < s.vwatermark ∧ (s.dtxns txnId).ovStatus = .canExecute

/-- The loop of `OnPublish`, over the stored transactions by id. -/
def publishLoop : List ℕ → Site → Site
  | [], s => s
  | txnId :: txns, s => publishLoop txns (if s.due txnId then s.commitExecute txnId else s)

def onPublish (dcOvts : OvTs) (reading : ℤ) (s : Site) : Option Site :=
  let s' :=
    if dcOvts > s.vwatermark then
      publishLoop s.storedTxnsById.elems { s with vwatermark := dcOvts }
    else s
  (s'.tidMgr.getServerVWatermark reading).map fun r => { s' with tidMgr := r.2 }

def onExecute (txnId : ℕ) (s : Site) : Option Site :=
  let d := s.dtxns txnId
  if d.outputReply then none
  else if d.ovts > s.vwatermark then
    some (s.setTxn txnId { d with outputReply := true, ovStatus := .canExecute })
  else
    let s' := s.setTxn txnId { d with outputReply := true, ovStatus := .executed }
    some (s'.commitExecute txnId)

/-- The messages a server gets. -/
inductive Event where
  | createTs (txnId : ℕ) (reading : ℤ)
  | store (txnId : ℕ)
  | storedRemoveTs (txnId : ℕ) (timestamp serverId : ℤ)
  | publish (dcOvts : OvTs) (reading : ℤ)
  | execute (txnId : ℕ)

def step (ts : ℕ → OvTs) (s : Site) : Event → Option Site
  | .createTs txnId reading =>
    (s.toSchedulerOV.onCreateTs txnId reading).map fun x => { s with toSchedulerOV := x }
  | .store txnId => s.onStore txnId (ts txnId)
  | .storedRemoveTs txnId timestamp serverId =>
    (s.toSchedulerOV.onStoredRemoveTs txnId timestamp serverId).map fun x =>
      { s with toSchedulerOV := x }
  | .publish dcOvts reading => s.onPublish dcOvts reading
  | .execute txnId => s.onExecute txnId

/-- A server that has no transactions yet. -/
def start (m : TidMgr) : Site := { tidMgr := m }

/-- What is executed later has no smaller timestamp. -/
def TsOrdered (ts : ℕ → OvTs) (s : Site) : Prop :=
  s.executed.Pairwise fun t u => ts t ≤ ts u

/-- A transaction is stored when its `OnExecute` comes, and if the watermark has passed it by then,
    no `OnExecute` of one with a greater timestamp that the watermark has passed too has come
    before; the transactions that `OnPublish` finds below its watermark have ids in the order of
    their timestamps. -/
def InOrder (ts : ℕ → OvTs) (s : Site) : Event → Prop
  | .execute t => (s.dtxns t).fullyDispatched ∧
      (ts t ≤ s.vwatermark → ∀ u, (s.dtxns u).outputReply → ts u ≤ s.vwatermark → ts u ≤ ts t)
  | .publish dcOvts _ => ∀ t ∈ s.storedTxnsById, ∀ u ∈ s.storedTxnsById,
      (s.dtxns t).ovStatus = .canExecute → (s.dtxns u).ovStatus = .canExecute →
      ts t < dcOvts → ts u < dcOvts → t < u → ts t ≤ ts u
  | _ => True

/-! ### What the loop does -/

theorem publishLoop_eq (txns : List ℕ) (s : Site) : publishLoop txns s = { s with
      storedTxnsById := (txns.filter s.due).foldl erase s.storedTxnsById
      executed := s.executed ++ txns.filter s.due } := by
  induction txns generalizing s with
  | nil => simp [publishLoop]
  | cons t txns ih =>
    rw [publishLoop, ih]
    by_cases ht : s.due t
    · -- executing one transaction changes no other's turn
      have hdue : (s.commitExecute t).due = s.due := rfl
      simp only [ht, if_true, hdue, filter_cons, foldl_cons]
      simp [commitExecute]
    · simp [ht]

theorem onPublish_toSchedulerOV (s : Site) (dcOvts : OvTs) (reading : ℤ) :
    (s.onPublish dcOvts reading).map toSchedulerOV =
      (s.toSchedulerOV.onPublish dcOvts reading).map Prod.snd := by
  rw [onPublish, SchedulerOV.onPublish, Option.map_map, Option.map_map]
  split
  · rw [publishLoop_eq]
    rfl
  · rfl

/-! ### Order -/

/-- A record under the watermark `w`: it has the coordinator's timestamp when it is stored, it is
    stored when its `OnExecute` has come, and if it waits then above the watermark. -/
structure RecordOk (ts : ℕ → OvTs) (w : OvTs) (listed : Prop) (t : ℕ) (d : TxOV) : Prop where
  asked : d.ovStatus = .canExecute → d.outputReply
  known : d.outputReply → d.fullyDispatched
  stamp : d.fullyDispatched → d.ovts = ts t
  waiting : listed → d.ovStatus = .canExecute → w ≤ ts t

/-- What has been executed is below the watermark, and what waits for it is not. -/
structure Inv (ts : ℕ → OvTs) (s : Site) : Prop where
  ordered : TsOrdered ts s
  done : ∀ t ∈ s.executed, (s.dtxns t).outputReply ∧ ts t ≤ s.vwatermark
  records : ∀ t, RecordOk ts s.vwatermark (t ∈ s.storedTxnsById) t (s.dtxns t)

theorem Inv.start (m : TidMgr) : Inv ts (start m) where
  ordered := .nil
  done := forall_mem_nil _
  records _ := ⟨fun h => (by cases h), fun h => (by cases h), fun h => (by cases h),
    fun h => absurd h (notMem_empty _)⟩

section
variable (h : Inv ts s)
include h

theorem Inv.setTxn {d : TxOV} (hd : (s.dtxns t).outputReply → d.outputReply)
    {listed : OrdSet ℕ} (hlisted : ∀ u, u ≠ t → u ∈ listed → u ∈ s.storedTxnsById)
    (hok : RecordOk ts s.vwatermark (t ∈ listed) t d) :
    Inv ts { s.setTxn t d with storedTxnsById := listed } := by
  refine ⟨h.ordered, fun u hu => ⟨?_, (h.done u hu).2⟩, fun u => ?_⟩
  · change (update s.dtxns t d u).outputReply
    rcases eq_or_ne u t with rfl | hne
    · rw [update_self]
      exact hd (h.done u hu).1
    · rw [update_of_ne hne]
      exact (h.done u hu).1
  · change RecordOk ts s.vwatermark (u ∈ listed) u (update s.dtxns t d u)
    rcases eq_or_ne u t with rfl | hne
    · rw [update_self]
      exact hok
    · rw [update_of_ne hne]
      exact { h.records u with
        waiting := fun hu => (h.records u).waiting (hlisted u hne hu) }

theorem Inv.onStore (hs : s.onStore t (ts t) = some s') : Inv ts s' := by
  rw [Site.onStore] at hs
  split at hs
  · cases hs
  next hnew =>
  cases hs
  refine h.setTxn ?_ (fun u hne hu => (mem_insert.mp hu).resolve_left hne) ?_
  · exact fun hr => hr
  · exact ⟨fun hc => (by cases hc), fun _ => rfl, fun _ => rfl, fun _ hc => (by cases hc)⟩

theorem Inv.commitExecute (hreply : (s.dtxns t).outputReply)
    (hle : ts t ≤ s.vwatermark) (hlast : ∀ u ∈ s.executed, ts u ≤ ts t) :
    Inv ts (s.commitExecute t) := by
  refine ⟨?_, forall_mem_concat h.done ⟨hreply, hle⟩, fun u => ?_⟩
  · refine pairwise_append.mpr ⟨h.ordered, pairwise_singleton _ _, ?_⟩
    intro u hu v hv
    rw [mem_singleton.mp hv]
    exact hlast u hu
  · exact { h.records u with
      waiting := fun hu => (h.records u).waiting (mem_erase.mp hu).1 }

theorem Inv.onExecute (hc : InOrder ts s (.execute t))
    (hs : s.onExecute t = some s') : Inv ts s' := by
  obtain ⟨hfull, hlate⟩ := hc
  have hstamp := (h.records t).stamp hfull
  rw [Site.onExecute] at hs
  split at hs
  · cases hs
  next hfirst =>
  split at hs
  · next hw =>
    cases hs
    rw [hstamp] at hw
    exact h.setTxn (fun _ => rfl) (fun _ _ hu => hu)
      ⟨fun _ => rfl, fun _ => hfull, fun _ => hstamp, fun _ _ => hw.le⟩
  · next hw =>
    cases hs
    rw [hstamp] at hw
    have hle : ts t ≤ s.vwatermark := not_lt.mp hw
    have hset : Inv ts (s.setTxn t
        { s.dtxns t with outputReply := true, ovStatus := .executed }) :=
      h.setTxn (fun _ => rfl) (fun _ _ hu => hu)
        ⟨fun hc => (by cases hc), fun _ => hfull, fun _ => hstamp, fun _ hc => (by cases hc)⟩
    refine hset.commitExecute ?_ hle fun u hu => ?_
    · change (update s.dtxns t _ t).outputReply
      rw [update_self]
    · obtain ⟨hreply, hpassed⟩ := h.done u hu
      exact hlate hle u hreply hpassed

theorem Inv.publishLoop (hw : s.vwatermark < dcOvts) (hc : InOrder ts s (.publish dcOvts reading)) :
    Inv ts (publishLoop s.storedTxnsById.elems { s with vwatermark := dcOvts }) := by
  rw [publishLoop_eq]
  set due := { s with vwatermark := dcOvts }.due with hdue
  have hmem : ∀ t, t ∈ s.storedTxnsById.elems.filter due ↔ t ∈ s.storedTxnsById ∧
      (s.dtxns t).ovStatus = .canExecute ∧ ts t < dcOvts := by
    intro t
    rw [mem_filter, hdue, Site.due, decide_eq_true_eq]
    have hstamp : (s.dtxns t).ovStatus = .canExecute → (s.dtxns t).ovts = ts t := fun hcan =>
      (h.records t).stamp ((h.records t).known ((h.records t).asked hcan))
    constructor
    · rintro ⟨ht, hlt, hcan⟩
      exact ⟨ht, hcan, hstamp hcan ▸ hlt⟩
    · rintro ⟨ht, hcan, hlt⟩
      exact ⟨ht, (hstamp hcan).symm ▸ hlt, hcan⟩
  refine ⟨?_, fun u hu => ?_, fun u => ?_⟩
  · refine pairwise_append.mpr ⟨h.ordered, ?_, fun u hu v hv => ?_⟩
    · refine (s.storedTxnsById.sorted.filter due).imp_of_mem fun {t u} ht hu htu => ?_
      obtain ⟨ht, htc, htw⟩ := (hmem t).mp ht
      obtain ⟨hu, huc, huw⟩ := (hmem u).mp hu
      exact hc t ht u hu htc huc htw huw htu
    · obtain ⟨hv, hvc, -⟩ := (hmem v).mp hv
      exact (h.done u hu).2.trans ((h.records v).waiting hv hvc)
  · rcases mem_append.mp hu with hu | hu
    · exact ⟨(h.done u hu).1, (h.done u hu).2.trans hw.le⟩
    · obtain ⟨-, hcan, hlt⟩ := (hmem u).mp hu
      exact ⟨(h.records u).asked hcan, hlt.le⟩
  · refine { h.records u with waiting := fun hu hcan => ?_ }
    obtain ⟨hu, hnot⟩ := mem_foldl_erase.mp hu
    rw [hmem] at hnot
    exact not_lt.mp fun hlt => hnot ⟨hu, hcan, hlt⟩

theorem Inv.onPublish (hc : InOrder ts s (.publish dcOvts reading))
    (hs : s.onPublish dcOvts reading = some s') : Inv ts s' := by
  obtain ⟨r, -, rfl⟩ := map_eq_some_iff.mp hs
  split
  · next hw => exact { h.publishLoop hw hc with }
  · exact { h with }

theorem step_inv {e : Event} (hc : InOrder ts s e) (hs : step ts s e = some s') : Inv ts s' := by
  cases e with
  | createTs txnId reading =>
    obtain ⟨x, hx, rfl⟩ := map_eq_some_iff.mp hs
    obtain ⟨r, -, rfl⟩ := map_eq_some_iff.mp hx
    exact { h with }
  | store txnId => exact h.onStore hs
  | storedRemoveTs txnId timestamp serverId =>
    obtain ⟨x, hx, rfl⟩ := map_eq_some_iff.mp hs
    obtain ⟨m, -, rfl⟩ := map_eq_some_iff.mp hx
    exact { h with }
  | publish dcOvts reading => exact h.onPublish hc hs
  | execute txnId => exact h.onExecute hc hs

end

/-- A server executes in the order of the timestamps, in every run in which transactions are stored
    before they are to be executed, those that come late come in order, and ids are in the order of
    the timestamps among those that a watermark lets go. -/
theorem executed_in_ts_order (ts : ℕ → OvTs) (m : TidMgr) (es : List Event)
    (h : Along (step ts) (InOrder ts) (start m) es) :
    Throughout (step ts) (TsOrdered ts) (start m) es :=
  throughout_mono (fun _ hinv => hinv.ordered)
    (throughout_of_inv (fun _ _ _ h => step_inv h) (Inv.start m) h)

/-- Transactions 1 and 2 are stored and to be executed, then a watermark passes both. -/
def both : List Event :=
  [.store 1, .store 2, .execute 1, .execute 2, .publish ⟨20, 0⟩ 30]

/-- With timestamps 5 and 10 they are executed in this order. -/
theorem executed_in_ts_order_both :
    Along (step fun t => ⟨5 * t, 0⟩) (InOrder fun t => ⟨5 * t, 0⟩) (start ⟨0, 0, .empty⟩) both ∧
      Throughout (step fun t => ⟨5 * t, 0⟩) (TsOrdered fun t => ⟨5 * t, 0⟩)
        (start ⟨0, 0, .empty⟩) both := by
  have h : Along (step fun t => ⟨5 * t, 0⟩) (InOrder fun t => ⟨5 * t, 0⟩)
      (start ⟨0, 0, .empty⟩) both := by
    refine fun s hs => ⟨trivial, ?_⟩
    obtain rfl := some.inj hs
    refine fun s hs => ⟨trivial, ?_⟩
    obtain rfl := some.inj hs
    refine fun s hs => ⟨⟨rfl, fun hle => absurd hle (by decide)⟩, ?_⟩
    obtain rfl := some.inj hs
    refine fun s hs => ⟨⟨rfl, fun hle => absurd hle (by decide)⟩, ?_⟩
    obtain rfl := some.inj hs
    refine fun s hs => ⟨fun t _ u _ _ _ _ _ htu => ?_, trivial⟩
    rw [OvTs.le_iff]
    exact .inl (by simp only; omega)
  exact ⟨h, executed_in_ts_order _ _ _ h⟩

/-- With timestamps 10 and 5 too, so the one with the greater timestamp is executed first. -/
theorem executed_by_id :
    ∃ s, run (step fun t => ⟨15 - 5 * t, 0⟩) (start ⟨0, 0, .empty⟩) both = some s ∧
      s.executed = [1, 2] ∧ ¬ TsOrdered (fun t => ⟨15 - 5 * t, 0⟩) s := by
  refine ⟨_, rfl, rfl, fun h => ?_⟩
  have h12 := (pairwise_cons.mp h).1 2 (by decide)
  exact absurd h12 (by decide)

end Site

end Fiss.OceanVista
